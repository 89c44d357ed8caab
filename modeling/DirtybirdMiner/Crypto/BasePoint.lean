import DirtybirdMiner.Bn256.Encodings
import DirtybirdMiner.Bn256.Order
import DirtybirdMiner.Crypto.Hashing

/-!
Hashing to a point of the curve, from `crypto/src/hashtopoint.rs`, on the points of
`bn256/src/curve.rs`.  The search for a first coordinate ends, whatever number it starts from,
and the point it ends at is not infinity: it generates the group.
-/

namespace DirtybirdMiner.Crypto.BasePoint

open DirtybirdMiner.Lib.Bytes
open DirtybirdMiner.Lib.Powers
open DirtybirdMiner.Bn256
open DirtybirdMiner.Bn256.Prime
open DirtybirdMiner.Bn256.Affine
open DirtybirdMiner.Bn256.Points
open DirtybirdMiner.Bn256.Gfp
open DirtybirdMiner.Bn256.Curve
open DirtybirdMiner.Bn256.Encodings
open DirtybirdMiner.Bn256.Order
open DirtybirdMiner.Crypto.Hashing (protocolConstant)
open DirtybirdMiner.Crypto.Statements (to32Be)

/-- The loop of `hash_to_point`, with a budget of iterations.  `none` is a used up budget or
the failed `expect`. -/
def hashToPointFrom : Nat → Nat → Option (CurvePoint GfP)
  | 0, _ => none
  | steps + 1, x =>
      let x3 := modpow x 3 fieldPrime
      let beta := (x3 + 3) % fieldPrime
      let y := modpow beta ((fieldPrime + 1) / 4) fieldPrime
      let y2 := y * y % fieldPrime
      if y2 = beta then
        match Encodings.unmarshal (to32Be x ++ to32Be y) with
        | .ok point => some point
        | .error _ => none
      else hashToPointFrom steps ((x + 1) % fieldPrime)

def hashToPoint (steps seed : Nat) : Option (CurvePoint GfP) :=
  hashToPointFrom steps (seed % groupOrder)

/-- `base_g`, for a hash function. -/
def baseG (keccak256 : List UInt8 → FixedBytes 32) (steps : Nat) : Option (CurvePoint GfP) :=
  hashToPoint steps (beValue (keccak256 (protocolConstant ++ [0x47])).1)

section Search

/-- What the second coordinate has to be a root of. -/
def curveValue (x : Nat) : Nat := (x * x * x + 3) % fieldPrime

/-- The condition that a candidate is checked for. -/
def HasRoot (x : Nat) : Prop :=
  modSqrt (curveValue x) * modSqrt (curveValue x) % fieldPrime = curveValue x

theorem beta_eq (x : Nat) : (modpow x 3 fieldPrime + 3) % fieldPrime = curveValue x := by
  have hcube : x ^ 3 = x * x * x := by ring
  rw [modpow_eq, Nat.mod_add_mod, hcube, curveValue]

theorem hashToPointFrom_of_root {x : Nat} (h : HasRoot x) (steps : Nat) :
    hashToPointFrom (steps + 1) x =
      match Encodings.unmarshal (beBytes 32 x ++ beBytes 32 (modSqrt (curveValue x))) with
      | .ok point => some point
      | .error _ => none := by
  unfold HasRoot modSqrt at h
  rw [hashToPointFrom]
  simp only [beta_eq]
  rw [if_pos h, to32Be, to32Be, modSqrt]

theorem hashToPointFrom_of_not_root {x : Nat} (h : ¬HasRoot x) (steps : Nat) :
    hashToPointFrom (steps + 1) x = hashToPointFrom steps ((x + 1) % fieldPrime) := by
  unfold HasRoot modSqrt at h
  rw [hashToPointFrom]
  simp only [beta_eq]
  rw [if_neg h]

theorem exists_of_unmarshal {m : List UInt8} {g : G1} (h : G1.unmarshal m = .ok g) :
    ∃ a, Encodings.unmarshal m = .ok a ∧ a.Is (pointOf g) := by
  have hrefines := unmarshal_refines m
  rw [h] at hrefines
  exact hrefines

/-- A candidate with a root is the first coordinate of the point that is returned. -/
theorem hashToPointFrom_found {x : Nat} (hx : x < fieldPrime) (hroot : HasRoot x) :
    ∃ (a : CurvePoint GfP) (P : AffinePoint), P.x = x ∧ P.y = modSqrt (curveValue x) ∧
      a.Is (pointOf (.affine P)) ∧
      Encodings.unmarshal (beBytes 32 P.x ++ beBytes 32 P.y) = .ok a ∧
      ∀ steps, hashToPointFrom (steps + 1) x = some a := by
  obtain ⟨P, hPx, hPy⟩ : ∃ P : AffinePoint, P.x = x ∧ P.y = modSqrt (curveValue x) := by
    have hlt := modSqrt_lt (curveValue x)
    unfold HasRoot at hroot
    generalize modSqrt (curveValue x) = y at hroot hlt ⊢
    rw [curveValue] at hroot
    exact ⟨⟨x, y, hx, hlt, hroot⟩, rfl, rfl⟩
  obtain ⟨a, ha, hpoint⟩ := exists_of_unmarshal (G1.unmarshal_coordinates P)
  refine ⟨a, P, hPx, hPy, hpoint, ha, ?_⟩
  intro steps
  rw [hPx, hPy] at ha
  rw [hashToPointFrom_of_root hroot, ha]

/-- The condition is that the value of the curve is a square. -/
theorem hasRoot_iff (x : Nat) : HasRoot x ↔ IsSquare ((x : Fp) ^ 3 + 3) := by
  rw [isSquare_iff]
  constructor
  · intro hroot
    refine ⟨modSqrt (curveValue x), modSqrt_lt _, ?_⟩
    rw [← onCurve_cast]
    exact hroot
  · rintro ⟨y, hy, hcurve⟩
    have hvalue : y * y % fieldPrime = curveValue x := onCurve_cast.mpr hcurve
    have hroot := modSqrt_square hy (show y * y % fieldPrime = curveValue x % fieldPrime by
      rw [curveValue, Nat.mod_mod, ← curveValue, hvalue])
    rw [HasRoot, square_of_root hroot, hvalue]

/-- One is the first coordinate of a point. -/
theorem hasRoot_one : HasRoot 1 :=
  (hasRoot_iff 1).mpr ⟨2, by norm_num⟩

/-- The candidates of the search, in a cycle. -/
def candidate (x k : Nat) : Nat := (x + k) % fieldPrime

theorem candidate_lt (x k : Nat) : candidate x k < fieldPrime :=
  Nat.mod_lt _ fieldPrime_prime.pos

/-- Candidates without a root are passed over. -/
theorem hashToPointFrom_skips {x k : Nat} (hx : x < fieldPrime)
    (hnone : ∀ j < k, ¬HasRoot (candidate x j)) (steps : Nat) :
    hashToPointFrom (steps + k) x = hashToPointFrom steps (candidate x k) := by
  induction k generalizing steps with
  | zero => rw [candidate, Nat.add_zero, Nat.add_zero, Nat.mod_eq_of_lt hx]
  | succ k ih =>
      have hnext : (candidate x k + 1) % fieldPrime = candidate x (k + 1) := by
        rw [candidate, candidate, Nat.mod_add_mod, Nat.add_assoc]
      have hskip := ih (fun j hj => hnone j (Nat.lt_succ_of_lt hj)) (steps + 1)
      rw [Nat.add_right_comm] at hskip
      rw [← Nat.add_assoc, hskip, hashToPointFrom_of_not_root (hnone k (Nat.lt_succ_self k)), hnext]

/-- The candidates come to one. -/
theorem exists_hasRoot {x : Nat} (hx : x < fieldPrime) :
    ∃ k < fieldPrime, HasRoot (candidate x k) := by
  refine ⟨(fieldPrime + 1 - x) % fieldPrime, Nat.mod_lt _ fieldPrime_prime.pos, ?_⟩
  have hone : candidate x ((fieldPrime + 1 - x) % fieldPrime) = 1 := by
    rw [candidate, Nat.add_mod_mod, Nat.add_sub_cancel' (by omega), Nat.add_mod_left]
    exact Nat.mod_eq_of_lt fieldPrime_prime.one_lt
  rw [hone]
  exact hasRoot_one

/-- The search ends at the first candidate with a root, not before. -/
theorem hashToPointFrom_ends {x : Nat} (hx : x < fieldPrime) :
    ∃ (k : Nat) (a : CurvePoint GfP) (P : AffinePoint), k < fieldPrime ∧
      (∀ j < k, ¬HasRoot (candidate x j)) ∧ HasRoot (candidate x k) ∧
      P.x = candidate x k ∧ P.y = modSqrt (curveValue P.x) ∧
      a.Is (pointOf (.affine P)) ∧
      Encodings.unmarshal (beBytes 32 P.x ++ beBytes 32 P.y) = .ok a ∧
      ∀ steps, hashToPointFrom steps x = if k < steps then some a else none := by
  classical
  obtain ⟨l, hl, hlroot⟩ := exists_hasRoot hx
  obtain ⟨k, hk, hroot, hnone⟩ : ∃ k < fieldPrime, HasRoot (candidate x k) ∧
      ∀ j < k, ¬HasRoot (candidate x j) := by
    have hexists : ∃ k, HasRoot (candidate x k) := ⟨l, hlroot⟩
    exact ⟨Nat.find hexists, lt_of_le_of_lt (Nat.find_min' hexists hlroot) hl,
      Nat.find_spec hexists, fun j => Nat.find_min hexists⟩
  obtain ⟨a, P, hPx, hPy, hpoint, hread, hfound⟩ := hashToPointFrom_found (candidate_lt x k) hroot
  refine ⟨k, a, P, hk, hnone, hroot, hPx, by rw [hPx, hPy], hpoint, hread, ?_⟩
  intro steps
  split
  · rename_i hlt
    obtain ⟨d, rfl⟩ := Nat.exists_eq_add_of_lt hlt
    have hskip := hashToPointFrom_skips hx hnone (d + 1)
    rw [hfound d, Nat.add_comm] at hskip
    exact hskip
  · rename_i hge
    have hskip := hashToPointFrom_skips hx (fun j hj => hnone j (show j < k by omega)) 0 (k := steps)
    rw [Nat.zero_add] at hskip
    rw [hskip, hashToPointFrom]

theorem seed_lt (seed : Nat) : seed % groupOrder < fieldPrime :=
  lt_of_lt_of_le (Nat.mod_lt _ groupOrder_prime.pos) (by decide)

end Search

/-- Hashing to a point: the first candidate whose value is a square, with the root of that value
that is computed.  The point is on the curve, not infinity, and its encoding stands for it. -/
theorem hashToPoint_canonical (seed : Nat) :
    ∃ (k : Nat) (a : CurvePoint GfP) (P : AffinePoint), k < fieldPrime ∧
      (∀ steps, hashToPoint steps seed = if k < steps then some a else none) ∧
      (∀ j < k, ¬IsSquare ((candidate (seed % groupOrder) j : Fp) ^ 3 + 3)) ∧
      IsSquare ((candidate (seed % groupOrder) k : Fp) ^ 3 + 3) ∧
      P.x = candidate (seed % groupOrder) k ∧
      P.y = (P.x ^ 3 + 3) ^ ((fieldPrime + 1) / 4) % fieldPrime ∧
      a.Is (pointOf (.affine P)) ∧ marshal a = beBytes 32 P.x ++ beBytes 32 P.y ∧
      CurvePoint.isOnCurve gfpOps a = true ∧
      (CurvePoint.makeAffine gfpOps a).isInfinity gfpOps = false ∧
      decompress (compress a) = .ok a := by
  obtain ⟨k, a, P, hk, hnone, hroot, hPx, hPy, hpoint, hread, hends⟩ :=
    hashToPointFrom_ends (seed_lt seed)
  refine ⟨k, a, P, hk, hends, ?_, (hasRoot_iff _).mp hroot, hPx, ?_, hpoint,
    marshal_refines hpoint, hpoint.isOnCurve gfpOps_interprets, ?_,
    decompress_compress_of_unmarshal hread hpoint⟩
  · intro j hj hsquare
    exact hnone j hj ((hasRoot_iff _).mpr hsquare)
  · rw [hPy, modSqrt, modpow_eq, curveValue, ← Nat.pow_mod, pow_three']
  · obtain ⟨haffine, -⟩ := hpoint.makeAffine gfpOps_interprets
    have hinfinity := CurvePoint.isInfinity_iff gfpOps_interprets
      (a := CurvePoint.makeAffine gfpOps a)
    rw [Lib.Jacobian.Represents.z_eq_zero haffine] at hinfinity
    rw [← Bool.not_eq_true, hinfinity]
    exact WeierstrassCurve.Affine.Point.some_ne_zero _

/-- The base point is found, whatever the hash function; it is not infinity. -/
theorem baseG_is (keccak256 : List UInt8 → FixedBytes 32) :
    ∃ (g : CurvePoint GfP) (G : (E Fp).Point), g.Is G ∧ G ≠ 0 ∧
      ∀ steps, fieldPrime ≤ steps → baseG keccak256 steps = some g := by
  obtain ⟨k, a, P, hk, -, -, -, -, hpoint, -, hends⟩ :=
    hashToPointFrom_ends (seed_lt (beValue (keccak256 (protocolConstant ++ [0x47])).1))
  refine ⟨a, pointOf (.affine P), hpoint, ?_, ?_⟩
  · exact WeierstrassCurve.Affine.Point.some_ne_zero _
  · intro steps hsteps
    exact (hends steps).trans (if_pos (lt_of_lt_of_le hk hsteps))

/-- A point other than infinity generates the group. -/
theorem addOrderOf_eq {G : (E Fp).Point} (hG : G ≠ 0) : addOrderOf G = groupOrder := by
  have hdvd : addOrderOf G ∣ groupOrder := card_points ▸ addOrderOf_dvd_natCard G
  rcases (Nat.dvd_prime groupOrder_prime).mp hdvd with hone | hall
  · exact absurd (AddMonoid.addOrderOf_eq_one_iff.mp hone) hG
  · exact hall

/-- Small multiples of the base point are different. -/
theorem nsmul_injective {G : (E Fp).Point} (hG : G ≠ 0) {m n : Nat} (hm : m < 2 ^ 64)
    (hn : n < 2 ^ 64) (h : m • G = n • G) : m = n := by
  have horder : 2 ^ 64 < groupOrder := by decide
  apply nsmul_injOn_Iio_addOrderOf (x := G)
  · rw [addOrderOf_eq hG]
    exact lt_trans hm horder
  · rw [addOrderOf_eq hG]
    exact lt_trans hn horder
  · exact h

end DirtybirdMiner.Crypto.BasePoint
