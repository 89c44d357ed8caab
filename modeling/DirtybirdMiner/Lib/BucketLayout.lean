import DirtybirdMiner.Lib.Checked
import DirtybirdMiner.Lib.Count
import Mathlib.Order.Lattice

/-!
Bucketed arrays.  Every number below `n` has a character, and the buckets of
the characters follow each other in the array.  Some elements are laid out from
the start of their bucket (the front elements), some from its end (the back
elements), each group in the order of a key.  The position of an element is
then a function of the layout alone, and it grows with the key.
-/

namespace DirtybirdMiner.Lib.BucketLayout

open DirtybirdMiner.Lib.Checked
open DirtybirdMiner.Lib.Count

section Buckets

variable {α : Type} [LinearOrder α] (n : Nat) (ch : Nat → α)

/-- The first index of the bucket of `c`. -/
noncomputable def bucketStart (c : α) : Nat := cnt n fun x => ch x < c

/-- One past the last index of the bucket of `c`. -/
noncomputable def bucketEnd (c : α) : Nat := cnt n fun x => ch x ≤ c

theorem bucketEnd_eq (c : α) :
    bucketEnd n ch c = bucketStart n ch c + cnt n fun x => ch x = c := by
  unfold bucketEnd bucketStart
  rw [← cnt_or (fun x _ hlt heq => absurd heq hlt.ne)]
  exact cnt_congr fun x _ => le_iff_lt_or_eq

theorem bucketEnd_le (c : α) : bucketEnd n ch c ≤ n := cnt_le n _

theorem bucketEnd_le_bucketStart {c d : α} (h : c < d) :
    bucketEnd n ch c ≤ bucketStart n ch d :=
  cnt_mono fun _ _ hx => hx.trans_lt h

end Buckets

/-- Front and back elements of a bucketed array, and the key they are kept
in order of. -/
structure Layout (α K : Type) [LinearOrder α] [LinearOrder K] where
  n : Nat
  ch : Nat → α
  front : Nat → Prop
  back : Nat → Prop
  ord : Nat → K
  front_lt : ∀ {x}, front x → x < n
  back_lt : ∀ {x}, back x → x < n
  not_back : ∀ {x}, front x → ¬back x
  ord_of_ch : ∀ {x y}, front x ∨ back x → front y ∨ back y → ch x < ch y → ord x < ord y
  ord_of_front_back : ∀ {x y}, front x → back y → ch x = ch y → ord x < ord y
  ord_inj : ∀ {x y}, front x ∨ back x → front y ∨ back y → ord x = ord y → x = y

namespace Layout

variable {α K : Type} [LinearOrder α] [LinearOrder K] (lay : Layout α K)

def Mem (x : Nat) : Prop := lay.front x ∨ lay.back x

noncomputable def start (c : α) : Nat := bucketStart lay.n lay.ch c

noncomputable def stop (c : α) : Nat := bucketEnd lay.n lay.ch c

noncomputable def frontCount (c : α) : Nat := cnt lay.n fun y => lay.front y ∧ lay.ch y = c

noncomputable def backCount (c : α) : Nat := cnt lay.n fun y => lay.back y ∧ lay.ch y = c

/-- The number of front elements of `x`'s bucket that come before `x`. -/
noncomputable def before (x : Nat) : Nat :=
  cnt lay.n fun y => lay.front y ∧ lay.ch y = lay.ch x ∧ lay.ord y < lay.ord x

/-- The number of back elements of `x`'s bucket that come after `x`. -/
noncomputable def after (x : Nat) : Nat :=
  cnt lay.n fun y => lay.back y ∧ lay.ch y = lay.ch x ∧ lay.ord x < lay.ord y

open Classical in
/-- The index at which the layout holds an element. -/
noncomputable def pos (x : Nat) : Nat :=
  if lay.front x then lay.start (lay.ch x) + lay.before x
  else lay.stop (lay.ch x) - 1 - lay.after x

theorem Mem.lt {lay : Layout α K} {x : Nat} (h : lay.Mem x) : x < lay.n :=
  h.elim lay.front_lt lay.back_lt

theorem pos_front {x : Nat} (h : lay.front x) :
    lay.pos x = lay.start (lay.ch x) + lay.before x := by
  rw [pos, if_pos h]

theorem pos_back {x : Nat} (h : lay.back x) :
    lay.pos x = lay.stop (lay.ch x) - 1 - lay.after x := by
  rw [pos, if_neg fun hf => lay.not_back hf h]

theorem counts_le (c : α) :
    lay.start c + lay.frontCount c + lay.backCount c ≤ lay.stop c := by
  have hstop : lay.stop c = lay.start c + cnt lay.n fun x => lay.ch x = c :=
    bucketEnd_eq lay.n lay.ch c
  have hor : lay.frontCount c + lay.backCount c ≤ cnt lay.n fun x => lay.ch x = c := by
    unfold frontCount backCount
    rw [← cnt_or (fun x _ hf hb => lay.not_back hf.1 hb.1)]
    exact cnt_mono fun x _ hx => hx.elim And.right And.right
  omega

theorem before_lt {x : Nat} (h : lay.front x) : lay.before x < lay.frontCount (lay.ch x) :=
  cnt_lt (fun _ _ hy => ⟨hy.1, hy.2.1⟩) (lay.front_lt h)
    (fun hx => lt_irrefl _ hx.2.2) ⟨h, rfl⟩

theorem after_lt {x : Nat} (h : lay.back x) : lay.after x < lay.backCount (lay.ch x) :=
  cnt_lt (fun _ _ hy => ⟨hy.1, hy.2.1⟩) (lay.back_lt h)
    (fun hx => lt_irrefl _ hx.2.2) ⟨h, rfl⟩

theorem pos_front_lt {x : Nat} (h : lay.front x) :
    lay.pos x < lay.start (lay.ch x) + lay.frontCount (lay.ch x) := by
  rw [lay.pos_front h]
  have := lay.before_lt h
  omega

theorem start_le_pos {x : Nat} (h : lay.Mem x) : lay.start (lay.ch x) ≤ lay.pos x := by
  rcases h with h | h
  · rw [lay.pos_front h]
    omega
  · rw [lay.pos_back h]
    have := lay.after_lt h
    have := lay.counts_le (lay.ch x)
    omega

theorem le_pos_back {x : Nat} (h : lay.back x) :
    lay.start (lay.ch x) + lay.frontCount (lay.ch x) ≤ lay.pos x := by
  rw [lay.pos_back h]
  have := lay.after_lt h
  have := lay.counts_le (lay.ch x)
  omega

theorem pos_lt_stop {x : Nat} (h : lay.Mem x) : lay.pos x < lay.stop (lay.ch x) := by
  have hcounts := lay.counts_le (lay.ch x)
  rcases h with h | h
  · have := lay.pos_front_lt h
    omega
  · rw [lay.pos_back h]
    have := lay.after_lt h
    omega

theorem pos_lt {x : Nat} (h : lay.Mem x) : lay.pos x < lay.n :=
  (lay.pos_lt_stop h).trans_le (bucketEnd_le lay.n lay.ch _)

/-- Positions follow the key. -/
theorem pos_lt_pos {x y : Nat} (hx : lay.Mem x) (hy : lay.Mem y)
    (hxy : lay.ord x < lay.ord y) : lay.pos x < lay.pos y := by
  rcases lt_trichotomy (lay.ch x) (lay.ch y) with hlt | heq | hgt
  · calc
      lay.pos x < lay.stop (lay.ch x) := lay.pos_lt_stop hx
      _ ≤ lay.start (lay.ch y) := bucketEnd_le_bucketStart lay.n lay.ch hlt
      _ ≤ lay.pos y := lay.start_le_pos hy
  · rcases hx with hx | hx
    · rcases hy with hy | hy
      · rw [lay.pos_front hx, lay.pos_front hy, heq]
        apply Nat.add_lt_add_left
        refine cnt_lt (fun z _ hz => ⟨hz.1, hz.2.1.trans heq, hz.2.2.trans hxy⟩)
          (lay.front_lt hx) (fun h => lt_irrefl _ h.2.2) ⟨hx, heq, hxy⟩
      · have := lay.pos_front_lt hx
        have := lay.le_pos_back hy
        rw [heq] at *
        omega
    · rcases hy with hy | hy
      · exact absurd hxy (lt_asymm (lay.ord_of_front_back hy hx heq.symm))
      · rw [lay.pos_back hx, lay.pos_back hy, heq]
        have hafter : lay.after y < lay.after x :=
          cnt_lt (fun z _ hz => ⟨hz.1, hz.2.1.trans heq.symm, hxy.trans hz.2.2⟩)
            (lay.back_lt hy) (fun h => lt_irrefl _ h.2.2) ⟨hy, heq.symm, hxy⟩
        have := lay.after_lt hx
        have := lay.counts_le (lay.ch x)
        rw [heq] at *
        omega
  · exact absurd hxy (lt_asymm (lay.ord_of_ch hy hx hgt))

theorem pos_lt_pos_iff {x y : Nat} (hx : lay.Mem x) (hy : lay.Mem y) :
    lay.pos x < lay.pos y ↔ lay.ord x < lay.ord y := by
  constructor
  · intro h
    rcases lt_trichotomy (lay.ord x) (lay.ord y) with hlt | heq | hgt
    · exact hlt
    · rw [lay.ord_inj hx hy heq] at h
      exact absurd h (lt_irrefl _)
    · exact absurd h (lt_asymm (lay.pos_lt_pos hy hx hgt))
  · exact lay.pos_lt_pos hx hy

theorem pos_inj {x y : Nat} (hx : lay.Mem x) (hy : lay.Mem y) (h : lay.pos x = lay.pos y) :
    x = y := by
  rcases lt_trichotomy (lay.ord x) (lay.ord y) with hlt | heq | hgt
  · exact absurd h (lay.pos_lt_pos hx hy hlt).ne
  · exact lay.ord_inj hx hy heq
  · exact absurd h (lay.pos_lt_pos hy hx hgt).ne'

end Layout

/-- The array holds `value x` at `pos x` for every active `x`, and a value
allowed by `rest` everywhere else. -/
structure Scatter (a : Array Int) (n : Nat) (pos : Nat → Nat) (active : Nat → Prop)
    (value : Nat → Int) (rest : Int → Prop) : Prop where
  size : a.size = n
  active_cell : ∀ x, active x → cell a (pos x) = value x
  rest_cell : ∀ p, p < n → (∀ x, active x → pos x ≠ p) → rest (cell a p)

namespace Scatter

variable {a : Array Int} {n : Nat} {pos q : Nat → Nat} {active active' : Nat → Prop}
  {value w : Nat → Int} {rest rest' : Int → Prop}

/-- Storing at the position of `x` makes it active. -/
theorem store (h : Scatter a n pos active value rest) {x : Nat} (v : Int) (hx : pos x < n)
    (hinj : ∀ y, active y → pos y = pos x → y = x) (hself : w x = v)
    (hvalue : ∀ y, active y → y ≠ x → w y = value y)
    (hactive : ∀ y, active' y ↔ active y ∨ y = x) :
    Scatter (a.setIfInBounds (pos x) v) n pos active' w rest where
  size := by simpa using h.size
  active_cell := by
    intro y hy
    rw [cell_set v (by simpa [h.size] using hx)]
    by_cases hyx : y = x
    · rw [if_pos (by rw [hyx]), hyx, hself]
    · have hay := ((hactive y).mp hy).resolve_right hyx
      rw [if_neg fun hpos => hyx (hinj y hay hpos), h.active_cell y hay, hvalue y hay hyx]
  rest_cell := by
    intro p hp hnone
    have hpx : p ≠ pos x := (hnone x ((hactive x).mpr (.inr rfl))).symm
    rw [cell_set_ne v hpx]
    exact h.rest_cell p hp fun y hy => hnone y ((hactive y).mpr (.inl hy))

/-- Overwriting the entry of `x` by a value that may stand anywhere. -/
theorem clear (h : Scatter a n pos active value rest) {x : Nat} (v : Int) (hx : pos x < n)
    (hinj : ∀ y, active y → pos y = pos x → y = x) (hv : rest v)
    (hactive : ∀ y, active' y ↔ active y ∧ y ≠ x) :
    Scatter (a.setIfInBounds (pos x) v) n pos active' value rest where
  size := by simpa using h.size
  active_cell := by
    intro y hy
    obtain ⟨hay, hyx⟩ := (hactive y).mp hy
    rw [cell_set_ne v fun hpos => hyx (hinj y hay hpos), h.active_cell y hay]
  rest_cell := by
    intro p hp hnone
    rw [cell_set v (by simpa [h.size] using hx)]
    split
    · exact hv
    · rename_i hpx
      refine h.rest_cell p hp fun y hy hpy => ?_
      refine hnone y ((hactive y).mpr ⟨hy, ?_⟩) hpy
      rintro rfl
      exact hpx hpy.symm

/-- Elements whose value may stand anywhere can be forgotten. -/
theorem forget (h : Scatter a n pos active value rest)
    (hsub : ∀ x, active' x → active x ∧ w x = value x ∧ q x = pos x)
    (hrest : ∀ x, active x → ¬active' x → rest' (value x)) (himp : ∀ v, rest v → rest' v) :
    Scatter a n q active' w rest' where
  size := h.size
  active_cell := by
    intro x hx
    obtain ⟨ha, hv, hp⟩ := hsub x hx
    rw [hp, h.active_cell x ha, hv]
  rest_cell := by
    intro p hp hnone
    by_cases hex : ∃ x, active x ∧ pos x = p
    · obtain ⟨x, hx, rfl⟩ := hex
      rw [h.active_cell x hx]
      exact hrest x hx fun hx' => hnone x hx' (hsub x hx').2.2
    · push Not at hex
      exact himp _ (h.rest_cell p hp hex)

theorem congr (h : Scatter a n pos active value rest)
    (hactive : ∀ x, active' x ↔ active x) (hvalue : ∀ x, active x → w x = value x) :
    Scatter a n pos active' w rest :=
  h.forget (fun x hx => ⟨(hactive x).mp hx, hvalue x ((hactive x).mp hx), rfl⟩)
    (fun x hx hx' => absurd ((hactive x).mpr hx) hx') fun _ hv => hv

end Scatter

end DirtybirdMiner.Lib.BucketLayout
