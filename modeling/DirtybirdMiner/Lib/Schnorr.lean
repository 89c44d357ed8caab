import Mathlib.Algebra.Module.Torsion.Field

/-!
Schnorr signatures over any group that is a vector space: the commitment that a challenge and
a response belong to, and what two responses give away.
-/

namespace DirtybirdMiner.Lib.Schnorr

variable {K G : Type*} [Field K] [AddCommGroup G] [Module K G]

/-- What the verifier computes in place of the commitment. -/
def commitment (g u : G) (s c : K) : G := s • g - c • u

theorem commitment_honest (g : G) (x k c : K) : commitment g (x • g) (k + c * x) c = k • g := by
  rw [commitment, add_smul, mul_smul, add_sub_cancel_right]

/-- A challenge has one response for each commitment. -/
theorem commitment_inj {g : G} (hg : g ≠ 0) (u : G) {s s' : K} (c : K) :
    commitment g u s c = commitment g u s' c ↔ s = s' := by
  rw [commitment, commitment, sub_left_inj]
  exact (smul_left_injective K hg).eq_iff

/-- The responses to two challenges for one commitment give the secret. -/
theorem secret_of_commitment_eq {g u : G} {s s' c c' : K} (hc : c ≠ c')
    (h : commitment g u s c = commitment g u s' c') : u = ((s - s') * (c - c')⁻¹) • g := by
  have hdiff : (s - s') • g = (c - c') • u := by
    rw [commitment, commitment, sub_eq_sub_iff_add_eq_add] at h
    rw [sub_smul, sub_smul, sub_eq_sub_iff_add_eq_add, h, add_comm]
  rw [mul_comm, mul_smul, hdiff, inv_smul_smul₀ (sub_ne_zero.mpr hc)]

end DirtybirdMiner.Lib.Schnorr
