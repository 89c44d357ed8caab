import DirtybirdMiner.Lib.BucketLayout

/-!
Induced sorting over a bucket layout, without the array: which elements have
been placed when a scan has reached an index, and where the next one goes.

A forward pass places the front elements.  An element becomes ready when its
successor has been scanned, and the last element at once.  A backward pass
places the back elements in the same way.  In both, the elements of a bucket
become ready in the order of the layout, so that the next free index of the
bucket is the position of the element that becomes ready next.
-/

namespace DirtybirdMiner.Lib.InducedSort

open DirtybirdMiner.Lib.Count
open DirtybirdMiner.Lib.BucketLayout

/-- What a forward scan needs to know of its layout.  The key is defined at
`n`, the end of the text, too, and is least there. -/
structure ForwardPass {α K : Type} [LinearOrder α] [LinearOrder K] (lay : Layout α K) :
    Prop where
  last : 0 < lay.n ∧ lay.front (lay.n - 1)
  ord_end : ∀ {x}, lay.Mem x → lay.ord lay.n < lay.ord x
  succ : ∀ {x}, lay.front x → x + 1 = lay.n ∨ lay.Mem (x + 1) ∧
    (lay.ch (x + 1) < lay.ch x ∨ lay.ch (x + 1) = lay.ch x ∧ lay.front (x + 1))
  ord_succ : ∀ {x y}, lay.front x → lay.front y → lay.ch x = lay.ch y →
    (lay.ord x < lay.ord y ↔ lay.ord (x + 1) < lay.ord (y + 1))
  pred_back : ∀ {x}, lay.back x → 0 < x ∧ lay.front (x - 1)
  pred_front : ∀ {x}, lay.front x → 0 < x → lay.ch x ≤ lay.ch (x - 1) → lay.front (x - 1)

namespace ForwardPass

variable {α K : Type} [LinearOrder α] [LinearOrder K] {lay : Layout α K}

/-- The front elements that have been placed when the scan is at `i`. -/
def Ready (lay : Layout α K) (i x : Nat) : Prop :=
  lay.front x ∧ (x + 1 = lay.n ∨ lay.pos (x + 1) < i)

/-- The next free index of the bucket of `c` when the scan is at `i`. -/
noncomputable def next (lay : Layout α K) (i : Nat) (c : α) : Nat :=
  lay.start c + cnt lay.n fun y => Ready lay i y ∧ lay.ch y = c

/-- A front element is above its successor. -/
theorem ord_succ_lt (h : ForwardPass lay) {x : Nat} (hx : lay.front x) :
    lay.ord (x + 1) < lay.ord x := by
  induction hm : lay.n - x using Nat.strong_induction_on generalizing x with
  | _ m ih =>
      rcases h.succ hx with hend | ⟨hmem, hlt | ⟨heq, hfront⟩⟩
      · rw [hend]
        exact h.ord_end (.inl hx)
      · exact lay.ord_of_ch hmem (.inl hx) hlt
      · have hxn := lay.front_lt hx
        have hnext := ih (lay.n - (x + 1)) (by omega) hfront rfl
        exact (h.ord_succ hfront hx heq).mpr hnext

theorem pos_succ_lt (h : ForwardPass lay) {x : Nat} (hx : lay.front x) (hn : x + 1 ≠ lay.n) :
    lay.pos (x + 1) < lay.pos x :=
  lay.pos_lt_pos ((h.succ hx).resolve_left hn).1 (.inl hx) (h.ord_succ_lt hx)

/-- When the scan reaches a front element, that element has been placed. -/
theorem ready_of_pos (h : ForwardPass lay) {x : Nat} (hx : lay.front x) :
    Ready lay (lay.pos x) x := by
  refine ⟨hx, ?_⟩
  by_cases hn : x + 1 = lay.n
  · exact .inl hn
  · exact .inr (h.pos_succ_lt hx hn)

theorem ready_end {x : Nat} (h : ForwardPass lay) (hx : lay.front x) :
    Ready lay lay.n x := by
  refine ⟨hx, (h.succ hx).imp_right fun hs => ?_⟩
  exact lay.pos_lt hs.1

/-- Scanning an element with no front predecessor makes nothing ready. -/
theorem ready_skip {i : Nat} (hnone : ∀ x, lay.front x → x + 1 ≠ lay.n → lay.pos (x + 1) ≠ i)
    (x : Nat) : Ready lay (i + 1) x ↔ Ready lay i x := by
  refine and_congr_right fun hx => ?_
  by_cases hn : x + 1 = lay.n
  · simp [hn]
  · have := hnone x hx hn
    simp only [hn, false_or]
    omega

theorem next_skip {i : Nat} (hnone : ∀ x, lay.front x → x + 1 ≠ lay.n → lay.pos (x + 1) ≠ i)
    (c : α) : next lay (i + 1) c = next lay i c := by
  unfold next
  congr 1
  exact cnt_congr fun x _ => and_congr_left fun _ => ready_skip hnone x

/-- Scanning `x + 1` makes `x` ready. -/
theorem ready_place (h : ForwardPass lay) {x : Nat} (hx : lay.front x) (hn : x + 1 ≠ lay.n)
    (y : Nat) : Ready lay (lay.pos (x + 1) + 1) y ↔ Ready lay (lay.pos (x + 1)) y ∨ y = x := by
  have hmem := ((h.succ hx).resolve_left hn).1
  unfold Ready
  constructor
  · rintro ⟨hy, hend | hlt⟩
    · exact .inl ⟨hy, .inl hend⟩
    · by_cases hyn : y + 1 = lay.n
      · exact .inl ⟨hy, .inl hyn⟩
      rcases Nat.lt_or_ge (lay.pos (y + 1)) (lay.pos (x + 1)) with hl | hg
      · exact .inl ⟨hy, .inr hl⟩
      · have heq := lay.pos_inj ((h.succ hy).resolve_left hyn).1 hmem (by omega)
        exact .inr (by omega)
  · rintro (⟨hy, hend | hlt⟩ | rfl)
    · exact ⟨hy, .inl hend⟩
    · exact ⟨hy, .inr (by omega)⟩
    · exact ⟨hx, .inr (by omega)⟩

theorem not_ready_place {x : Nat} (hn : x + 1 ≠ lay.n) : ¬Ready lay (lay.pos (x + 1)) x := by
  rintro ⟨-, hend | hlt⟩
  · exact hn hend
  · exact lt_irrefl _ hlt

theorem next_place (h : ForwardPass lay) {x : Nat} (hx : lay.front x) (hn : x + 1 ≠ lay.n)
    (c : α) : next lay (lay.pos (x + 1) + 1) c =
      if c = lay.ch x then next lay (lay.pos (x + 1)) c + 1
      else next lay (lay.pos (x + 1)) c := by
  have hready := h.ready_place hx hn
  have hnot : ¬Ready lay (lay.pos (x + 1)) x := not_ready_place hn
  unfold next
  split
  · rename_i hc
    rw [Nat.add_assoc]
    congr 1
    refine cnt_insert (lay.front_lt hx) (fun hr => hnot hr.1) fun y _ => ?_
    rw [hready y]
    constructor
    · rintro ⟨hr | rfl, hch⟩
      · exact .inl ⟨hr, hch⟩
      · exact .inr rfl
    · rintro (⟨hr, hch⟩ | rfl)
      · exact ⟨.inl hr, hch⟩
      · exact ⟨.inr rfl, hc.symm⟩
  · rename_i hc
    congr 1
    refine cnt_congr fun y _ => and_congr_left fun hch => ?_
    rw [hready y]
    refine or_iff_left ?_
    rintro rfl
    exact hc hch.symm

/-- The next free index of its bucket is the position of the element that
becomes ready. -/
theorem next_eq_pos (h : ForwardPass lay) {x : Nat} (hx : lay.front x) (hn : x + 1 ≠ lay.n) :
    next lay (lay.pos (x + 1)) (lay.ch x) = lay.pos x := by
  have hmem := ((h.succ hx).resolve_left hn).1
  rw [lay.pos_front hx]
  unfold next Layout.before
  congr 1
  refine cnt_congr fun y _ => ?_
  constructor
  · rintro ⟨⟨hy, hlt⟩, hch⟩
    refine ⟨hy, hch, (h.ord_succ hy hx hch).mpr ?_⟩
    by_cases hyn : y + 1 = lay.n
    · rw [hyn]
      exact h.ord_end hmem
    · have hymem := ((h.succ hy).resolve_left hyn).1
      exact (lay.pos_lt_pos_iff hymem hmem).mp (hlt.resolve_left hyn)
  · rintro ⟨hy, hch, hlt⟩
    refine ⟨⟨hy, ?_⟩, hch⟩
    by_cases hyn : y + 1 = lay.n
    · exact .inl hyn
    · have hymem := ((h.succ hy).resolve_left hyn).1
      exact .inr (lay.pos_lt_pos hymem hmem ((h.ord_succ hy hx hch).mp hlt))

/-- What a scan can meet at an index: nothing, an element without a front
predecessor, or the successor of a front element. -/
theorem scan_cases (h : ForwardPass lay) (i : Nat) :
    (∀ y, lay.Mem y → lay.pos y ≠ i) ∨
      (∃ y, lay.front y ∧ lay.pos y = i ∧ (y = 0 ∨ lay.ch (y - 1) < lay.ch y)) ∨
      ∃ x, lay.front x ∧ x + 1 ≠ lay.n ∧ lay.pos (x + 1) = i := by
  by_cases hex : ∃ y, lay.Mem y ∧ lay.pos y = i
  · obtain ⟨y, hy, hpos⟩ := hex
    have hlt := hy.lt
    have hpred : 0 < y → lay.front (y - 1) →
        ∃ x, lay.front x ∧ x + 1 ≠ lay.n ∧ lay.pos (x + 1) = i := by
      intro h0 hf
      refine ⟨y - 1, hf, by omega, ?_⟩
      rw [Nat.sub_add_cancel h0, hpos]
    rcases hy with hy | hy
    · by_cases hfree : y = 0 ∨ lay.ch (y - 1) < lay.ch y
      · exact .inr (.inl ⟨y, hy, hpos, hfree⟩)
      · push Not at hfree
        have h0 : 0 < y := by omega
        exact .inr (.inr (hpred h0 (h.pred_front hy h0 hfree.2)))
    · exact .inr (.inr (hpred (h.pred_back hy).1 (h.pred_back hy).2))
  · push Not at hex
    exact .inl hex

/-- In the first two cases of `scan_cases` nothing becomes ready. -/
theorem none_of_empty (h : ForwardPass lay) {i : Nat} (hnone : ∀ y, lay.Mem y → lay.pos y ≠ i)
    (x : Nat) (hx : lay.front x) (hn : x + 1 ≠ lay.n) : lay.pos (x + 1) ≠ i :=
  hnone _ ((h.succ hx).resolve_left hn).1

theorem none_of_free (h : ForwardPass lay) {y : Nat} (hy : lay.front y)
    (hfree : y = 0 ∨ lay.ch (y - 1) < lay.ch y) (x : Nat) (hx : lay.front x)
    (hn : x + 1 ≠ lay.n) : lay.pos (x + 1) ≠ lay.pos y := by
  intro heq
  obtain ⟨hmem, hch⟩ := (h.succ hx).resolve_left hn
  obtain rfl := lay.pos_inj hmem (.inl hy) heq
  rw [Nat.add_sub_cancel] at hfree
  have hlt := hfree.resolve_left (by omega)
  rcases hch with hgt | ⟨heq', -⟩
  · exact lt_asymm hlt hgt
  · exact hlt.ne heq'.symm

/-- Before the scan only the last element is ready. -/
theorem ready_zero {y : Nat} (h : ForwardPass lay) : Ready lay 0 y ↔ y = lay.n - 1 := by
  have hlast := h.last
  constructor
  · rintro ⟨hy, hend | hlt⟩
    · omega
    · omega
  · rintro rfl
    exact ⟨hlast.2, .inl (by omega)⟩

theorem pos_last (h : ForwardPass lay) : lay.pos (lay.n - 1) = lay.start (lay.ch (lay.n - 1)) := by
  have hlast := h.last
  rw [lay.pos_front hlast.2, Layout.before, cnt_zero_of_none, Nat.add_zero]
  rintro y - ⟨hy, hch, hlt⟩
  rw [h.ord_succ hy hlast.2 hch, Nat.sub_add_cancel hlast.1] at hlt
  by_cases hyn : y + 1 = lay.n
  · rw [hyn] at hlt
    exact lt_irrefl _ hlt
  · exact lt_asymm hlt (h.ord_end ((h.succ hy).resolve_left hyn).1)

theorem next_zero (h : ForwardPass lay) (c : α) :
    next lay 0 c = if c = lay.ch (lay.n - 1) then lay.start c + 1 else lay.start c := by
  have hlast := h.last
  unfold next
  split
  · rename_i hc
    congr 1
    rw [← cnt_eq_one (show lay.n - 1 < lay.n by omega)]
    refine cnt_congr fun y _ => ?_
    rw [h.ready_zero]
    exact and_iff_left_of_imp fun hy => by rw [hy, hc]
  · rename_i hc
    rw [cnt_zero_of_none, Nat.add_zero]
    rintro y - ⟨hy, hch⟩
    rw [h.ready_zero] at hy
    exact hc (by rw [← hch, hy])

end ForwardPass

/-- What a backward scan needs to know of its layout. -/
structure BackwardPass {α K : Type} [LinearOrder α] [LinearOrder K] (lay : Layout α K) :
    Prop where
  succ : ∀ {x}, lay.back x → lay.Mem (x + 1) ∧
    (lay.ch x < lay.ch (x + 1) ∨ lay.ch x = lay.ch (x + 1) ∧ lay.back (x + 1))
  ord_succ : ∀ {x y}, lay.back x → lay.back y → lay.ch x = lay.ch y →
    (lay.ord x < lay.ord y ↔ lay.ord (x + 1) < lay.ord (y + 1))

namespace BackwardPass

variable {α K : Type} [LinearOrder α] [LinearOrder K] {lay : Layout α K}

/-- The back elements that have been placed when the indices from `i` on have
been scanned. -/
def Ready (lay : Layout α K) (i x : Nat) : Prop :=
  lay.back x ∧ i ≤ lay.pos (x + 1)

/-- One past the next free index of the bucket of `c`. -/
noncomputable def next (lay : Layout α K) (i : Nat) (c : α) : Nat :=
  lay.stop c - cnt lay.n fun y => Ready lay i y ∧ lay.ch y = c

theorem ord_lt_succ (h : BackwardPass lay) {x : Nat} (hx : lay.back x) :
    lay.ord x < lay.ord (x + 1) := by
  induction hm : lay.n - x using Nat.strong_induction_on generalizing x with
  | _ m ih =>
      obtain ⟨hmem, hlt | ⟨heq, hback⟩⟩ := h.succ hx
      · exact lay.ord_of_ch (.inr hx) hmem hlt
      · have hxn := lay.back_lt hx
        have hnext := ih (lay.n - (x + 1)) (by omega) hback rfl
        exact (h.ord_succ hx hback heq).mpr hnext

theorem pos_lt_succ (h : BackwardPass lay) {x : Nat} (hx : lay.back x) :
    lay.pos x < lay.pos (x + 1) :=
  lay.pos_lt_pos (.inr hx) (h.succ hx).1 (h.ord_lt_succ hx)

theorem ready_of_pos (h : BackwardPass lay) {x : Nat} (hx : lay.back x) :
    Ready lay (lay.pos x + 1) x :=
  ⟨hx, h.pos_lt_succ hx⟩

theorem not_ready_end (h : BackwardPass lay) {x : Nat} : ¬Ready lay lay.n x := by
  rintro ⟨hx, hle⟩
  have := lay.pos_lt (h.succ hx).1
  omega

theorem next_end (h : BackwardPass lay) (c : α) : next lay lay.n c = lay.stop c := by
  unfold next
  rw [cnt_zero_of_none, Nat.sub_zero]
  rintro y - ⟨hy, -⟩
  exact h.not_ready_end hy

theorem ready_skip {i : Nat} (hnone : ∀ x, lay.back x → lay.pos (x + 1) ≠ i) (x : Nat) :
    Ready lay i x ↔ Ready lay (i + 1) x := by
  refine and_congr_right fun hx => ?_
  have := hnone x hx
  omega

theorem next_skip {i : Nat} (hnone : ∀ x, lay.back x → lay.pos (x + 1) ≠ i) (c : α) :
    next lay i c = next lay (i + 1) c := by
  unfold next
  congr 1
  exact cnt_congr fun x _ => and_congr_left fun _ => ready_skip hnone x

theorem ready_place (h : BackwardPass lay) {x : Nat} (hx : lay.back x) (y : Nat) :
    Ready lay (lay.pos (x + 1)) y ↔ Ready lay (lay.pos (x + 1) + 1) y ∨ y = x := by
  unfold Ready
  constructor
  · rintro ⟨hy, hle⟩
    rcases Nat.lt_or_ge (lay.pos (x + 1)) (lay.pos (y + 1)) with hl | hg
    · exact .inl ⟨hy, hl⟩
    · have heq := lay.pos_inj (h.succ hy).1 (h.succ hx).1 (by omega)
      exact .inr (by omega)
  · rintro (⟨hy, hlt⟩ | rfl)
    · exact ⟨hy, by omega⟩
    · exact ⟨hx, le_rfl⟩

theorem not_ready_place {x : Nat} : ¬Ready lay (lay.pos (x + 1) + 1) x := by
  rintro ⟨-, hlt⟩
  omega

theorem ready_count_eq_after (h : BackwardPass lay) {x : Nat} (hx : lay.back x) :
    (cnt lay.n fun y => Ready lay (lay.pos (x + 1) + 1) y ∧ lay.ch y = lay.ch x) =
      lay.after x := by
  refine cnt_congr fun y _ => ?_
  constructor
  · rintro ⟨⟨hy, hlt⟩, hch⟩
    refine ⟨hy, hch, (h.ord_succ hx hy hch.symm).mpr ?_⟩
    exact (lay.pos_lt_pos_iff (h.succ hx).1 (h.succ hy).1).mp hlt
  · rintro ⟨hy, hch, hlt⟩
    refine ⟨⟨hy, ?_⟩, hch⟩
    exact lay.pos_lt_pos (h.succ hx).1 (h.succ hy).1 ((h.ord_succ hx hy hch.symm).mp hlt)

/-- The element that becomes ready goes just below the bound of its bucket. -/
theorem next_eq_pos (h : BackwardPass lay) {x : Nat} (hx : lay.back x) :
    next lay (lay.pos (x + 1) + 1) (lay.ch x) = lay.pos x + 1 := by
  have hafter := lay.after_lt hx
  have hcounts := lay.counts_le (lay.ch x)
  rw [lay.pos_back hx, next, h.ready_count_eq_after hx]
  omega

theorem next_place (h : BackwardPass lay) {x : Nat} (hx : lay.back x) (c : α) :
    next lay (lay.pos (x + 1)) c =
      if c = lay.ch x then next lay (lay.pos (x + 1) + 1) c - 1
      else next lay (lay.pos (x + 1) + 1) c := by
  have hready := h.ready_place hx
  unfold next
  split
  · rename_i hc
    rw [Nat.sub_sub]
    congr 1
    refine cnt_insert (lay.back_lt hx) (fun hr => not_ready_place hr.1) fun y _ => ?_
    rw [hready y]
    constructor
    · rintro ⟨hr | rfl, hch⟩
      · exact .inl ⟨hr, hch⟩
      · exact .inr rfl
    · rintro (⟨hr, hch⟩ | rfl)
      · exact ⟨.inl hr, hch⟩
      · exact ⟨.inr rfl, hc.symm⟩
  · rename_i hc
    congr 1
    refine cnt_congr fun y _ => and_congr_left fun hch => ?_
    rw [hready y]
    refine or_iff_left ?_
    rintro rfl
    exact hc hch.symm

end BackwardPass

end DirtybirdMiner.Lib.InducedSort
