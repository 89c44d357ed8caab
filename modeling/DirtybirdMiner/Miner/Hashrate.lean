import DirtybirdMiner.Lib.RingBuffers
import Mathlib.Data.Rat.Cast.Order
import Mathlib.Tactic.Linarith
import Mathlib.Tactic.FieldSimp
import Mathlib.Tactic.Ring

/-!
The rates of the status line, from `main.rs`: the rate over a window of ten samples and the
average since the start.  Instants are nanoseconds and rates are rational, where the source
rounds.
-/

namespace DirtybirdMiner.Miner.Hashrate

open DirtybirdMiner.Lib.RingBuffers

structure HashratePoint where
  instant : Nat
  hashes : UInt64
deriving DecidableEq

/-- The points of a window have ten slots. -/
abbrev HashrateWindow : Type := Ring HashratePoint 9

def HashrateWindow.new (instant : Nat) (hashes : UInt64) : HashrateWindow :=
  Ring.new { instant, hashes }

/-- Thousands of hashes a second. -/
def rateKhs (hashes : UInt64) (elapsed : Nat) : Rat :=
  if elapsed = 0 then 0 else hashes.toNat / (elapsed / 1000000000) / 1000

/-- `checked_sub` and `saturating_duration_since`. -/
def rateSince (old point : HashratePoint) : Rat :=
  if old.hashes ≤ point.hashes then
    rateKhs (point.hashes - old.hashes) (point.instant - old.instant)
  else 0

def HashrateWindow.sample (w : HashrateWindow) (instant : Nat) (hashes : UInt64) :
    Rat × HashrateWindow :=
  let (old, w) := w.push { instant, hashes }
  (rateSince old { instant, hashes }, w)

/-- The turns of `stats_loop`, for what it reads off the clock and the counter: the rate and the
average of each. -/
def statsTurns (started : HashratePoint) : HashrateWindow → List HashratePoint → List (Rat × Rat)
  | _, [] => []
  | w, point :: points =>
      let (rate, w) := HashrateWindow.sample w point.instant point.hashes
      (rate, rateSince started point) :: statsTurns started w points

def statsLoop (started : HashratePoint) (points : List HashratePoint) : List (Rat × Rat) :=
  statsTurns started (HashrateWindow.new started.instant started.hashes) points

section Window

/-- A turn compares its sample with the one that leaves the queue. -/
theorem statsTurns_eq (started : HashratePoint) (w : HashrateWindow)
    (points : List HashratePoint) :
    statsTurns started w points =
      List.zipWith (fun old point => (rateSince old point, rateSince started point))
        (w.toList ++ points) points := by
  induction points generalizing w with
  | nil => rw [statsTurns, List.zipWith_nil_right]
  | cons point points ih =>
      have hqueue : w.toList ++ point :: points =
          (w.push point).1 :: ((w.push point).2.toList ++ points) := by
        rw [← List.cons_append, Ring.push_toList, List.append_assoc]
        rfl
      rw [hqueue, List.zipWith_cons_cons, ← ih]
      rfl

end Window

section Pace

/-- Between the points, `lo` to `hi` thousands of hashes a second. -/
structure Pace (lo hi : Rat) (a b : HashratePoint) : Prop where
  later : a.instant < b.instant
  hashes_le : a.hashes ≤ b.hashes
  lower : lo * (b.instant - a.instant) ≤ (b.hashes.toNat - a.hashes.toNat) * 1000000
  upper : (b.hashes.toNat - a.hashes.toNat) * 1000000 ≤ hi * (b.instant - a.instant)

variable {lo hi : Rat} {a b c : HashratePoint}

theorem Pace.trans (h : Pace lo hi a b) (h' : Pace lo hi b c) : Pace lo hi a c where
  later := h.later.trans h'.later
  hashes_le := UInt64.le_trans h.hashes_le h'.hashes_le
  lower := by linarith [h.lower, h'.lower]
  upper := by linarith [h.upper, h'.upper]

theorem pairwise_of_isChain {points : List HashratePoint} (h : points.IsChain (Pace lo hi)) :
    points.Pairwise (Pace lo hi) :=
  haveI : IsTrans HashratePoint (Pace lo hi) := ⟨fun _ _ _ hab hbc => hab.trans hbc⟩
  h.pairwise

/-- A rate is between the bounds of the pace. -/
theorem Pace.rateSince (h : Pace lo hi a b) : lo ≤ rateSince a b ∧ rateSince a b ≤ hi := by
  have hpos : (0 : Rat) < b.instant - a.instant := by
    rw [sub_pos]
    exact_mod_cast h.later
  have hhashes : ((b.hashes - a.hashes).toNat : Rat) = b.hashes.toNat - a.hashes.toNat := by
    rw [UInt64.toNat_sub_of_le _ _ h.hashes_le,
      Nat.cast_sub (UInt64.le_iff_toNat_le.mp h.hashes_le)]
  have hrate : Hashrate.rateSince a b =
      (b.hashes.toNat - a.hashes.toNat) * 1000000 / (b.instant - a.instant) := by
    have hne : b.instant - a.instant ≠ 0 := Nat.sub_ne_zero_of_lt h.later
    rw [Hashrate.rateSince, if_pos h.hashes_le, rateKhs, if_neg hne, hhashes,
      Nat.cast_sub h.later.le]
    field_simp
    ring
  rw [hrate, le_div_iff₀ hpos, div_le_iff₀ hpos]
  exact ⟨h.lower, h.upper⟩

end Pace

/-- Two seconds of a thousand hashes each. -/
def steadyPoints : List HashratePoint := [⟨1000000000, 1000⟩, ⟨2000000000, 2000⟩]

theorem steadyPoints_isChain : (⟨0, 0⟩ :: steadyPoints).IsChain (Pace 1 1) := by
  have hone : (1000 : UInt64).toNat = 1000 := rfl
  have htwo : (2000 : UInt64).toNat = 2000 := rfl
  have hfirst : Pace 1 1 ⟨0, 0⟩ ⟨1000000000, 1000⟩ :=
    ⟨by decide, by decide, by norm_num [hone], by norm_num [hone]⟩
  have hsecond : Pace 1 1 ⟨1000000000, 1000⟩ ⟨2000000000, 2000⟩ :=
    ⟨by decide, by decide, by norm_num [hone, htwo], by norm_num [hone, htwo]⟩
  exact .cons_cons hfirst (.cons_cons hsecond (.singleton _))

end DirtybirdMiner.Miner.Hashrate
