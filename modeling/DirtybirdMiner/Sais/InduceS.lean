import DirtybirdMiner.Sais.InduceL

/-!
The last pass, `induceS`.  It scans `sa` from its end.  The marked entries are
those whose predecessor is a back element; the pass takes the mark off and
places the predecessor.  At index `i` the array holds the front elements of the
layout and the back elements whose successors lie at `i` or above.
-/

namespace DirtybirdMiner.Sais.InduceS

open DirtybirdMiner.Lib
open DirtybirdMiner.Lib.Checked
open DirtybirdMiner.Lib.BucketLayout
open DirtybirdMiner.Lib.InducedSort
open DirtybirdMiner.Lib.SuffixOrder
open DirtybirdMiner.Lib.LmsLayouts
open DirtybirdMiner.Sais.Model
open DirtybirdMiner.Sais.Buckets
open DirtybirdMiner.Sais.LmsScan
open DirtybirdMiner.Sais.InduceL

section

variable {F : Family} {text : Array Int} {textMax : Nat} {haveFreq : Bool}

theorem placeDown_returns (h : Input F text textMax) {index g : Nat → Nat}
    {st : InduceState} (hcur : Cursor F text textMax haveFreq index st)
    (hsa : st.sa.size = text.size) {x p : Nat} (hx : x < text.size) (hp : p < text.size)
    (hbound : index (code text x) = p + 1) (hself : g (code text x) = p)
    (hne : ∀ d, d ≠ code text x → g d = index d)
    {k : Int} (hlo : -(text.size : Int) ≤ k) (hhi : k ≤ text.size) :
    Returns (placeDown F (F.boff textMax haveFreq) (cell text x) k st) fun st' =>
      Cursor F text textMax haveFreq g st' ∧ st'.sa = st.sa.setIfInBounds p k := by
  unfold placeDown
  refine Returns.bind (selectBucket_returns h hcur hx) ?_
  rintro st₁ ⟨hcur₁, hsa₁, hcB, hb⟩
  have hn63 := h.size_lt_two_pow
  have hb' : st₁.b - 1 = p := by rw [hb, hbound]; omega
  refine Returns.of_eq (a := { st₁ with sa := st.sa.setIfInBounds p k, b := (p : Int) }) ?_
    ⟨hcur₁.move (h.code_lt hx) hcB (by rw [hself]) hne _, rfl⟩
  rw [hb', h.checked_eq (by omega) (by omega)]
  simp only [Option.bind_eq_bind, Option.bind_some]
  rw [usize_natCast (by omega), hsa₁, h.cast_eq hlo hhi, put_eq_some _ (by omega),
    Option.bind_some]

variable {K : Type} [LinearOrder K] {lay : Layout Int K}

/-- Placing the back element that becomes ready, whatever is stored for it. -/
theorem placeDown_ready_returns (h : Input F text textMax) (hfit : Fits text lay)
    (hpass : BackwardPass lay) {x : Nat} (hx : lay.back x) {st : InduceState}
    (hsa : st.sa.size = text.size)
    (hcur : Cursor F text textMax haveFreq
      (fun c => BackwardPass.next lay (lay.pos (x + 1) + 1) (c : Int)) st)
    {k : Int} (hlo : -(text.size : Int) ≤ k) (hhi : k ≤ text.size) :
    Returns (placeDown F (F.boff textMax haveFreq) (cell text x) k st) fun st' =>
      Cursor F text textMax haveFreq
        (fun c => BackwardPass.next lay (lay.pos (x + 1)) (c : Int)) st' ∧
        st'.sa = st.sa.setIfInBounds (lay.pos x) k := by
  have hxn := hfit.lt_size (.inr hx)
  have hch := hfit.ch_eq_code h hxn
  have hnext := hpass.next_eq_pos hx
  rw [hch] at hnext
  refine placeDown_returns h hcur hsa hxn (hfit.pos_lt_size (.inr hx)) hnext ?_ ?_ hlo hhi
  · rw [hpass.next_place hx, if_pos hch.symm, hnext, Nat.add_sub_cancel]
  · intro d hd
    rw [hpass.next_place hx, if_neg]
    rw [hch]
    omega

/-- The elements whose scan places another one. -/
def Linked (lay : Layout Int K) (x : Nat) : Prop := 0 < x ∧ lay.back (x - 1)

theorem linked_succ {x : Nat} (hx : lay.back x) : Linked lay (x + 1) :=
  ⟨Nat.succ_pos x, by simpa using hx⟩

theorem not_linked_of_none {i : Nat} (hnone : ∀ x, lay.back x → lay.pos (x + 1) ≠ i) {y : Nat}
    (hy : lay.pos y = i) : ¬Linked lay y := by
  rintro ⟨h0, hb⟩
  refine hnone (y - 1) hb ?_
  rwa [Nat.sub_add_cancel h0]

open Classical in
/-- What `induceS` stores for an element at index `i` of the scan. -/
noncomputable def flagged (lay : Layout Int K) (i x : Nat) : Int :=
  if Linked lay x ∧ lay.pos x < i then -(x : Int) else x

theorem flagged_succ_of_ne {i x : Nat} (h : Linked lay x → lay.pos x ≠ i) :
    flagged lay (i + 1) x = flagged lay i x := by
  unfold flagged
  congr 1
  simp only [eq_iff_iff]
  refine and_congr_right fun hl => ?_
  have := h hl
  omega

/-- The state of `induceS` at index `i`. -/
structure Backward (F : Family) (text : Array Int) (textMax : Nat) (haveFreq : Bool)
    (lay : Layout Int K) (i : Nat) (st : InduceState) : Prop where
  sa : Scatter st.sa text.size lay.pos (fun x => lay.front x ∨ BackwardPass.Ready lay i x)
    (flagged lay i) (0 ≤ ·)
  cursor : Cursor F text textMax haveFreq (fun c => BackwardPass.next lay i (c : Int)) st

theorem mem_of_ready {i x : Nat} (h : lay.front x ∨ BackwardPass.Ready lay i x) : lay.Mem x :=
  h.imp_right And.left

/-- The mark a back element is stored with, read off its two characters. -/
theorem flagged_placed (hfit : Fits text lay) (hpass : BackwardPass lay)
    (hpred : ∀ x, lay.back x → 0 < x → (lay.back (x - 1) ↔ lay.ch (x - 1) ≤ lay.ch x))
    {x : Nat} (hx : lay.back x) :
    flagged lay (lay.pos (x + 1)) x =
      if 0 < x ∧ cell text (x - 1) ≤ cell text x then -(x : Int) else x := by
  have hlt := hpass.pos_lt_succ hx
  unfold flagged Linked
  rw [hfit.ch_eq] at hpred
  congr 1
  simp only [eq_iff_iff, hlt, and_true]
  exact and_congr_right fun h0 => hpred x hx h0

theorem induceSStep_returns (h : Input F text textMax) (hfit : Fits text lay)
    (hpass : BackwardPass lay)
    (hpred : ∀ x, lay.back x → 0 < x → (lay.back (x - 1) ↔ lay.ch (x - 1) ≤ lay.ch x))
    {i : Nat} (hi : i < text.size) {st : InduceState}
    (hst : Backward F text textMax haveFreq lay (i + 1) st) :
    Returns (induceSStep F text (F.boff textMax haveFreq) i st)
      (Backward F text textMax haveFreq lay i) := by
  have hisa : i < st.sa.size := by rw [hst.sa.size]; exact hi
  have hread : st.sa[i]? = some (cell st.sa i) := getElem?_eq_cell hisa
  have hn63 := h.size_lt_two_pow
  by_cases hex : ∃ x, lay.back x ∧ lay.pos (x + 1) = i
  · obtain ⟨x, hx, rfl⟩ := hex
    have hxn := hfit.lt_size (.inr hx)
    have hmem := (hpass.succ hx).1
    have hactive : lay.front (x + 1) ∨ BackwardPass.Ready lay (lay.pos (x + 1) + 1) (x + 1) :=
      hmem.imp_right hpass.ready_of_pos
    have hcell : cell st.sa (lay.pos (x + 1)) = -((x + 1 : Nat) : Int) := by
      rw [hst.sa.active_cell _ hactive, flagged, if_pos ⟨linked_succ hx, by omega⟩]
    have hbody : induceSStep F text (F.boff textMax haveFreq) (lay.pos (x + 1)) st =
        placeDown F (F.boff textMax haveFreq) (cell text x) (flagged lay (lay.pos (x + 1)) x)
          { st with sa := st.sa.setIfInBounds (lay.pos (x + 1)) ((x + 1 : Nat) : Int) } := by
      have hk : ((x + 1 : Nat) : Int) - 1 = (x : Int) := by omega
      have hx1 := hfit.lt_size hmem
      rw [flagged_placed hfit hpass hpred hx]
      unfold induceSStep
      rw [hread, hcell]
      simp only [Option.bind_eq_bind, Option.bind_some]
      rw [if_neg (by omega), neg_neg, h.cast_eq (by omega) (by omega), put_eq_some _ hisa,
        Option.bind_some, hk, usize_natCast (by omega), getElem?_eq_cell hxn, Option.bind_some]
      by_cases h0 : 0 < x
      · rw [if_pos (by omega), show (x : Int) - 1 = ((x - 1 : Nat) : Int) by omega,
          usize_natCast (by omega), getElem?_eq_cell (by omega), Option.bind_some]
        simp only [h0, true_and]
      · obtain rfl : x = 0 := by omega
        simp
    have hbounds : -(text.size : Int) ≤ flagged lay (lay.pos (x + 1)) x ∧
        flagged lay (lay.pos (x + 1)) x ≤ text.size := by
      unfold flagged
      split <;> omega
    rw [hbody]
    refine (placeDown_ready_returns h hfit hpass hx (by simpa using hst.sa.size)
      (hst.cursor.with_sa _) hbounds.1 hbounds.2).mono ?_
    rintro st' ⟨hcur', hsa'⟩
    refine ⟨?_, hcur'⟩
    rw [hsa']
    -- First the scanned entry loses its mark, then the new element is stored.
    have hunmarked := hst.sa.store
      (w := fun y => if y = x + 1 then (y : Int) else flagged lay (lay.pos (x + 1) + 1) y)
      ((x + 1 : Nat) : Int) hi (fun z hz heq => lay.pos_inj (mem_of_ready hz) hmem heq)
      (if_pos rfl) (fun z _ hne => if_neg hne)
      fun z => (or_iff_left_of_imp fun hz => by rw [hz]; exact hactive).symm
    refine hunmarked.store _ (hfit.pos_lt_size (.inr hx))
      (fun z hz heq => lay.pos_inj (mem_of_ready hz) (.inr hx) heq) rfl (fun z hz hne => ?_)
      fun z => ?_
    · by_cases hzx : z = x + 1
      · subst hzx
        rw [flagged, if_neg (by omega), if_pos rfl]
      · rw [if_neg hzx]
        refine (flagged_succ_of_ne fun _ heq => hzx ?_).symm
        exact lay.pos_inj (mem_of_ready hz) hmem heq
    · rw [hpass.ready_place hx]
      exact or_assoc.symm
  · have hnone : ∀ x, lay.back x → lay.pos (x + 1) ≠ i := fun x hx heq => hex ⟨x, hx, heq⟩
    have hge : 0 ≤ cell st.sa i := by
      by_cases hocc : ∃ y, (lay.front y ∨ BackwardPass.Ready lay (i + 1) y) ∧ lay.pos y = i
      · obtain ⟨y, hy, rfl⟩ := hocc
        rw [hst.sa.active_cell y hy, flagged,
          if_neg fun hf => not_linked_of_none hnone rfl hf.1]
        omega
      · exact hst.sa.rest_cell i hi fun y hy heq => hocc ⟨y, hy, heq⟩
    refine Returns.of_eq (a := st) (by simp [induceSStep, hread, hge]) ⟨?_, ?_⟩
    · refine hst.sa.congr (fun x => or_congr_right (BackwardPass.ready_skip hnone x)) fun x _ => ?_
      exact (flagged_succ_of_ne fun hl heq => not_linked_of_none hnone heq hl).symm
    · exact hst.cursor.congr fun c => BackwardPass.next_skip hnone c

/-- After `induceS` every element is in place. -/
theorem induceS_returns (h : Input F text textMax) (htm : 0 < textMax) (hfit : Fits text lay)
    (hpass : BackwardPass lay)
    (hpred : ∀ x, lay.back x → 0 < x → (lay.back (x - 1) ↔ lay.ch (x - 1) ≤ lay.ch x))
    {sa tmp : Array Int}
    (hsa : Scatter sa text.size lay.pos lay.front (flagged lay text.size) (0 ≤ ·))
    (ht : Tables F text textMax haveFreq tmp) :
    Returns (induceS F text sa textMax tmp haveFreq) fun r =>
      Tables F text textMax haveFreq r.2 ∧
        Scatter r.1 text.size lay.pos lay.Mem (fun x => (x : Int)) (0 ≤ ·) := by
  unfold induceS
  refine Returns.bind (bucketMax_returns h htm ht) ?_
  rintro tmp₁ ⟨ht₁, hb₁⟩
  have hend : Backward F text textMax haveFreq lay text.size
      ⟨sa, tmp₁, 0, cell tmp₁ (F.boff textMax haveFreq + 0)⟩ := by
    refine ⟨hsa.congr (fun x => or_iff_left ?_) fun _ _ => rfl, ?_⟩
    · rw [← hfit.n_eq]
      exact hpass.not_ready_end
    · refine (Cursor.of_table ht₁ hb₁ htm).congr fun c => ?_
      rw [← hfit.n_eq, hpass.next_end, hfit.stop_eq]
  have hread : tmp₁[F.boff textMax haveFreq + usize 0]? =
      some (cell tmp₁ (F.boff textMax haveFreq + 0)) :=
    getElem?_eq_cell (ht₁.boff_add_lt htm)
  simp only [Option.bind_eq_bind]
  rw [hread, Option.bind_some, hsa.size]
  refine Returns.bind (forDown_returns (Backward F text textMax haveFreq lay)
    text.size _ hend fun i st hi hst => ?_) ?_
  · exact induceSStep_returns h hfit hpass hpred hi hst
  · intro st hst
    refine Returns.pure ⟨hst.cursor.tables, hst.sa.congr (fun x => ?_) fun x _ => ?_⟩
    · exact or_congr_right ⟨fun hb => ⟨hb, Nat.zero_le _⟩, And.left⟩
    · rw [flagged, if_neg (by omega)]

end

end DirtybirdMiner.Sais.InduceS
