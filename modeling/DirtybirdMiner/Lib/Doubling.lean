import Mathlib.Data.Prod.Lex
import DirtybirdMiner.Lib.LexCompare

/-!
Prefix doubling: ranks that order the places of a sequence by windows of some length give, in
pairs, the order by windows of twice the length.  A sorted list is ranked anew by counting the
changes of the key.
-/

namespace DirtybirdMiner.Lib.Doubling

open DirtybirdMiner.Lib.LexCompare

variable {α β : Type} [LinearOrder α] [LinearOrder β]

section Windows

omit [LinearOrder α] in
/-- The entries from a place on. -/
def window (s : Nat → α) (m i : Nat) : List α := (List.range m).map fun j => s (i + j)

omit [LinearOrder α] in
@[simp] theorem window_length (s : Nat → α) (m i : Nat) : (window s m i).length = m := by
  rw [window, List.length_map, List.length_range]

omit [LinearOrder α] in
theorem window_add (s : Nat → α) (m k i : Nat) :
    window s (m + k) i = window s m i ++ window s k (i + m) := by
  rw [window, List.range_add, List.map_append, List.map_map]
  congr 1
  apply List.map_congr_left
  intro j _
  rw [Function.comp_apply, Nat.add_assoc]

omit [LinearOrder α] in
theorem window_succ (s : Nat → α) (m i : Nat) :
    window s (m + 1) i = s i :: window s m (i + 1) := by
  rw [Nat.add_comm m, window_add]
  rfl

omit [LinearOrder α] in
/-- Equal windows agree in every entry. -/
theorem window_entry {s : Nat → α} {m i j : Nat} (h : window s m i = window s m j) {d : Nat}
    (hd : d < m) : s (i + d) = s (j + d) := by
  have hget := congrArg (fun w => w[d]?) h
  simpa only [window, List.getElem?_map, List.getElem?_range hd, Option.map_some,
    Option.some.injEq] using hget

theorem append_lt_append_iff {s s' : List α} (t t' : List α) (h : s.length = s'.length) :
    s ++ t < s' ++ t' ↔ s < s' ∨ s = s' ∧ t < t' := by
  rw [← lexCmp_eq_lt_iff, lexCmp_append t t' h, Ordering.then_eq_lt, lexCmp_eq_lt_iff,
    lexCmp_eq_eq_iff, lexCmp_eq_lt_iff]

/-- Ranks that order the places as their windows. -/
def RanksBy (s : Nat → α) (m : Nat) (r : Nat → β) : Prop :=
  ∀ i j, r i < r j ↔ window s m i < window s m j

variable {s : Nat → α} {m k : Nat} {r : Nat → β}

theorem RanksBy.eq_iff (h : RanksBy s m r) (i j : Nat) :
    r i = r j ↔ window s m i = window s m j := by
  rw [le_antisymm_iff, le_antisymm_iff, ← not_lt, ← not_lt, ← not_lt, ← not_lt, h j i, h i j]

/-- Pairs of ranks order the places as windows of twice the length. -/
theorem RanksBy.double (h : RanksBy s k r) :
    RanksBy s (2 * k) fun i => toLex (r i, r (i + k)) := by
  intro i j
  rw [Nat.two_mul, window_add, window_add, append_lt_append_iff _ _ (by simp),
    Prod.Lex.toLex_lt_toLex]
  simp only [h i j, h (i + k) (j + k), h.eq_iff i j]

end Windows

section Changes

/-- How often the key has changed up to a place. -/
def changes (keys : Nat → β) : Nat → Nat
  | 0 => 0
  | w + 1 => changes keys w + if keys w = keys (w + 1) then 0 else 1

variable {keys : Nat → β} {n v w : Nat}

theorem changes_step (keys : Nat → β) (w : Nat) :
    changes keys w ≤ changes keys (w + 1) ∧ changes keys (w + 1) ≤ changes keys w + 1 := by
  rw [changes]
  split
  · exact ⟨le_rfl, Nat.le_succ _⟩
  · exact ⟨Nat.le_succ _, le_rfl⟩

theorem changes_le (keys : Nat → β) (w : Nat) : changes keys w ≤ w := by
  induction w with
  | zero => exact le_rfl
  | succ w ih => exact (changes_step keys w).2.trans (Nat.succ_le_succ ih)

theorem changes_mono (keys : Nat → β) (h : v ≤ w) : changes keys v ≤ changes keys w := by
  induction w, h using Nat.le_induction with
  | base => exact le_rfl
  | succ w _ ih => exact ih.trans (changes_step keys w).1

/-- Keys in ascending order are equal where they have not changed. -/
theorem changes_eq_iff (hmono : ∀ v w, v ≤ w → w < n → keys v ≤ keys w) (hvw : v ≤ w)
    (hw : w < n) : changes keys v = changes keys w ↔ keys v = keys w := by
  induction w, hvw using Nat.le_induction with
  | base => exact iff_of_true rfl rfl
  | succ w hvw ih =>
      have hlow := hmono v w hvw (by omega)
      have hstep := hmono w (w + 1) (Nat.le_succ w) hw
      have hle := changes_mono keys hvw
      have hih := ih (by omega)
      rw [changes]
      split
      · rename_i hsame
        rw [Nat.add_zero, hih, hsame]
      · rename_i hchange
        constructor
        · intro heq
          omega
        · intro heq
          exact absurd (le_antisymm hstep (heq ▸ hlow)) hchange

theorem changes_lt_iff (hmono : ∀ v w, v ≤ w → w < n → keys v ≤ keys w) (hv : v < n)
    (hw : w < n) : changes keys v < changes keys w ↔ keys v < keys w := by
  rcases Nat.le_total v w with hvw | hwv
  · rw [lt_iff_le_and_ne, lt_iff_le_and_ne, Ne, Ne, changes_eq_iff hmono hvw hw]
    exact and_congr_left fun _ => iff_of_true (changes_mono keys hvw) (hmono v w hvw hw)
  · exact iff_of_false (Nat.not_lt.mpr (changes_mono keys hwv))
      (not_lt_of_ge (hmono w v hwv hv))

/-- Keys that change at every place are as many as the places. -/
theorem changes_last (hmono : ∀ v w, v ≤ w → w < n + 1 → keys v ≤ keys w) :
    changes keys n = n ↔ ∀ v w, v < w → w < n + 1 → keys v < keys w := by
  constructor
  · intro hall v w hvw hw
    rw [← changes_lt_iff hmono (by omega) hw]
    have hto : ∀ u d, changes keys (u + d) ≤ changes keys u + d := by
      intro u d
      induction d with
      | zero => exact le_rfl
      | succ d ih => exact (changes_step keys (u + d)).2.trans (Nat.succ_le_succ ih)
    have hfull : ∀ u, u ≤ n → changes keys u = u := by
      intro u hu
      have hle := changes_le keys u
      have hrest := hto u (n - u)
      rw [Nat.add_sub_cancel' hu, hall] at hrest
      omega
    rw [hfull v (by omega), hfull w (by omega)]
    exact hvw
  · intro hstrict
    have hfull : ∀ u, u ≤ n → changes keys u = u := by
      intro u hu
      induction u with
      | zero => rfl
      | succ u ih =>
          rw [changes, ih (by omega), if_neg (hstrict u (u + 1) (Nat.lt_succ_self u) (by omega)).ne]
    exact hfull n le_rfl

end Changes

end DirtybirdMiner.Lib.Doubling
