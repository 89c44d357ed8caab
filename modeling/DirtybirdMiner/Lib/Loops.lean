import Mathlib.Tactic.Common

/-!
Loops that are driven from outside: a counted loop whose body may break, and a
loop that polls a condition the environment controls.  The run of a polling loop
is cut off after a number of polls, so a statement about every cut-off is one
about every prefix of a run that may never end.
-/

namespace DirtybirdMiner.Lib.Loops

variable {σ τ : Type}

/-- `for _ in 0..count`, where the body says whether to break. -/
def forBreak (body : σ → σ × Bool) : Nat → σ → σ
  | 0, s => s
  | count + 1, s => if (body s).2 then (body s).1 else forBreak body count (body s).1

/-- `while poll { batch }`, where `guard k` is the outcome of the poll with
number `k`, for at most `fuel` polls.  The flag says whether the loop ended. -/
def pollWhile (guard : Nat → Bool) (batch : σ → σ) : Nat → Nat → σ → Bool × σ
  | _, 0, s => (false, s)
  | k, fuel + 1, s =>
      if guard k then pollWhile guard batch (k + 1) fuel (batch s) else (true, s)

theorem forBreak_invariant {body : σ → σ × Bool} {inv : σ → Prop}
    (hstep : ∀ s, inv s → inv (body s).1) (count : Nat) {s : σ} (h : inv s) :
    inv (forBreak body count s) := by
  induction count generalizing s with
  | zero => exact h
  | succ count ih =>
      rw [forBreak]
      split
      · exact hstep s h
      · exact ih (hstep s h)

theorem pollWhile_invariant {guard : Nat → Bool} {batch : σ → σ} {inv : σ → Prop}
    (hbatch : ∀ s, inv s → inv (batch s)) (k fuel : Nat) {s : σ} (h : inv s) :
    inv (pollWhile guard batch k fuel s).2 := by
  induction fuel generalizing k s with
  | zero => exact h
  | succ fuel ih =>
      rw [pollWhile]
      split
      · exact ih (k + 1) (hbatch s h)
      · exact h

/-- A poll that fails within the budget ends the loop. -/
theorem pollWhile_returns {guard : Nat → Bool} (batch : σ → σ) {k last fuel : Nat} (s : σ)
    (hguard : guard last = false) (hk : k ≤ last) (hlast : last < k + fuel) :
    (pollWhile guard batch k fuel s).1 = true := by
  induction fuel generalizing k s with
  | zero => omega
  | succ fuel ih =>
      rw [pollWhile]
      split
      · rename_i hk'
        have hne : k ≠ last := by
          rintro rfl
          rw [hk'] at hguard
          cases hguard
        exact ih (batch s) (by omega) (by omega)
      · rfl

/-- Two bodies that never break and keep a relation, one of which does two
iterations of the other. -/
theorem forBreak_pairs {rel : σ → τ → Prop} {one : σ → σ × Bool} {two : τ → τ × Bool}
    (hone : ∀ s, (one s).2 = false) (htwo : ∀ t, (two t).2 = false)
    (hstep : ∀ s t, rel s t → rel (one (one s).1).1 (two t).1) (count : Nat) {s : σ} {t : τ}
    (h : rel s t) : rel (forBreak one (2 * count) s) (forBreak two count t) := by
  induction count generalizing s t with
  | zero => exact h
  | succ count ih =>
      rw [Nat.mul_succ, forBreak, forBreak, forBreak, hone, hone, htwo]
      exact ih (hstep s t h)

/-- Related batches under the same polls: the loops end together. -/
theorem pollWhile_related {rel : σ → τ → Prop} (guard : Nat → Bool) {one : σ → σ} {two : τ → τ}
    (hbatch : ∀ s t, rel s t → rel (one s) (two t)) (k fuel : Nat) {s : σ} {t : τ}
    (h : rel s t) :
    (pollWhile guard one k fuel s).1 = (pollWhile guard two k fuel t).1 ∧
      rel (pollWhile guard one k fuel s).2 (pollWhile guard two k fuel t).2 := by
  induction fuel generalizing k s t with
  | zero => exact ⟨rfl, h⟩
  | succ fuel ih =>
      rw [pollWhile, pollWhile]
      split
      · exact ih (k + 1) (hbatch s t h)
      · exact ⟨rfl, h⟩

end DirtybirdMiner.Lib.Loops
