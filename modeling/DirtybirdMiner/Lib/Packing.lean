import DirtybirdMiner.Lib.Count

/-!
Packing some elements of an array at its high end, in the order of their
positions: a scan from the top moves each one it meets to the next free index
below the end.
-/

namespace DirtybirdMiner.Lib.Packing

open DirtybirdMiner.Lib.Count

section

variable (n : Nat) (pos : Nat → Nat) (p : Nat → Prop)

/-- Where an element ends up. -/
noncomputable def topPos (x : Nat) : Nat := n - 1 - cnt n fun y => p y ∧ pos x < pos y

/-- The lower end of the packed part when the indices from `i` on have been
scanned. -/
noncomputable def top (i : Nat) : Nat := n - cnt n fun y => p y ∧ i ≤ pos y

end

/-- Elements below `n` at distinct positions below `n`. -/
structure Spread (n : Nat) (pos : Nat → Nat) (p : Nat → Prop) : Prop where
  lt : ∀ {x}, p x → x < n
  pos_lt : ∀ {x}, p x → pos x < n
  inj : ∀ {x y}, p x → p y → pos x = pos y → x = y

namespace Spread

variable {n : Nat} {pos : Nat → Nat} {p : Nat → Prop} {x y : Nat}

theorem later_lt (h : Spread n pos p) (hx : p x) :
    (cnt n fun y => p y ∧ pos x < pos y) < cnt n p :=
  cnt_lt (fun _ _ hy => hy.1) (h.lt hx) (fun hlt => lt_irrefl _ hlt.2) hx

theorem later_le (h : Spread n pos p) (x : Nat) :
    (cnt n fun y => p y ∧ pos x < pos y) ≤ n - (pos x + 1) :=
  cnt_le_of_inj (fun _ _ hy => ⟨hy.2, h.pos_lt hy.1⟩) fun _ _ hy hz => h.inj hy.1 hz.1

/-- Packing moves elements up only. -/
theorem pos_le_topPos (h : Spread n pos p) (hx : p x) : pos x ≤ topPos n pos p x := by
  have hle := h.later_le x
  have hlt := h.pos_lt hx
  unfold topPos
  omega

theorem topPos_lt (h : Spread n pos p) (hx : p x) : topPos n pos p x < n := by
  have hlt := h.lt hx
  unfold topPos
  omega

theorem le_topPos (h : Spread n pos p) (hx : p x) : n - cnt n p ≤ topPos n pos p x := by
  have hlt := h.later_lt hx
  unfold topPos
  omega

theorem topPos_lt_topPos (h : Spread n pos p) (hy : p y) (hxy : pos x < pos y) :
    topPos n pos p x < topPos n pos p y := by
  have hlater : (cnt n fun z => p z ∧ pos y < pos z) < cnt n fun z => p z ∧ pos x < pos z :=
    cnt_lt (fun _ _ hz => ⟨hz.1, hxy.trans hz.2⟩) (h.lt hy) (fun hlt => lt_irrefl _ hlt.2)
      ⟨hy, hxy⟩
  have hle := h.later_le x
  have hlt := h.pos_lt hy
  unfold topPos
  omega

theorem topPos_lt_iff (h : Spread n pos p) (hx : p x) (hy : p y) :
    topPos n pos p x < topPos n pos p y ↔ pos x < pos y := by
  constructor
  · intro hlt
    rcases lt_trichotomy (pos x) (pos y) with hl | he | hg
    · exact hl
    · rw [h.inj hx hy he] at hlt
      exact absurd hlt (lt_irrefl _)
    · exact absurd hlt (lt_asymm (h.topPos_lt_topPos hx hg))
  · exact h.topPos_lt_topPos hy

theorem topPos_inj (h : Spread n pos p) (hx : p x) (hy : p y)
    (heq : topPos n pos p x = topPos n pos p y) : x = y := by
  rcases lt_trichotomy (pos x) (pos y) with hl | he | hg
  · exact absurd heq (h.topPos_lt_topPos hy hl).ne
  · exact h.inj hx hy he
  · exact absurd heq (h.topPos_lt_topPos hx hg).ne'

/-- The packed part has no gaps. -/
theorem exists_topPos (h : Spread n pos p) {q : Nat} (hlo : n - cnt n p ≤ q) (hhi : q < n) :
    ∃ x, p x ∧ topPos n pos p x = q := by
  obtain ⟨x, -, hx, hq⟩ := exists_preimage_of_cnt (n := n) (f := topPos n pos p)
    (fun x _ hx => ⟨h.le_topPos hx, h.topPos_lt hx⟩) (fun _ _ => h.topPos_inj)
    (by omega) hlo hhi
  exact ⟨x, hx, hq⟩

theorem top_end (h : Spread n pos p) : top n pos p n = n := by
  unfold top
  rw [cnt_zero_of_none, Nat.sub_zero]
  rintro y - ⟨hy, hle⟩
  have := h.pos_lt hy
  omega

theorem top_skip {i : Nat} (hnone : ∀ y, p y → pos y ≠ i) :
    top n pos p i = top n pos p (i + 1) := by
  unfold top
  congr 1
  refine cnt_congr fun y _ => and_congr_right fun hy => ?_
  have := hnone y hy
  omega

/-- The element met by the scan goes just below the packed part. -/
theorem top_succ (h : Spread n pos p) (hx : p x) :
    top n pos p (pos x + 1) = topPos n pos p x + 1 := by
  have hle := h.later_le x
  have hlt := h.pos_lt hx
  have hcnt : (cnt n fun y => p y ∧ pos x + 1 ≤ pos y) = cnt n fun y => p y ∧ pos x < pos y :=
    rfl
  unfold top topPos
  omega

theorem top_self (h : Spread n pos p) (hx : p x) :
    top n pos p (pos x) = topPos n pos p x := by
  have hcnt : (cnt n fun y => p y ∧ pos x ≤ pos y) =
      (cnt n fun y => p y ∧ pos x < pos y) + 1 := by
    refine cnt_insert (h.lt hx) (fun hlt => lt_irrefl _ hlt.2) fun y _ => ?_
    constructor
    · rintro ⟨hy, hle⟩
      rcases hle.lt_or_eq with hl | he
      · exact .inl ⟨hy, hl⟩
      · exact .inr (h.inj hy hx he.symm)
    · rintro (⟨hy, hl⟩ | rfl)
      · exact ⟨hy, hl.le⟩
      · exact ⟨hx, le_rfl⟩
  have hle := h.later_le x
  have hlt := h.pos_lt hx
  unfold top topPos
  omega

end Spread

end DirtybirdMiner.Lib.Packing
