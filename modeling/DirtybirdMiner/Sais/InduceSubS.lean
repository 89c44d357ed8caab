import DirtybirdMiner.Lib.Packing
import DirtybirdMiner.Sais.InduceS

/-!
The backward pass over substrings, `induceSubS`.  An entry that it meets is
cleared: either it places its predecessor, or it is the head of a substring
and goes to the packed part at the high end of `sa`.
-/

namespace DirtybirdMiner.Sais.InduceSubS

open DirtybirdMiner.Lib
open DirtybirdMiner.Lib.Checked
open DirtybirdMiner.Lib.BucketLayout
open DirtybirdMiner.Lib.InducedSort
open DirtybirdMiner.Lib.Packing
open DirtybirdMiner.Sais.Model
open DirtybirdMiner.Sais.Buckets
open DirtybirdMiner.Sais.LmsScan
open DirtybirdMiner.Sais.InduceL
open DirtybirdMiner.Sais.InduceS

section

variable {K : Type} [LinearOrder K]

/-- The back elements without a back predecessor. -/
def Head (lay : Layout Int K) (x : Nat) : Prop := lay.back x ∧ ¬Linked lay x

/-- The elements that the array holds at index `i` of the scan. -/
def Live (lay : Layout Int K) (i x : Nat) : Prop :=
  Linked lay x ∧ lay.pos x < i ∧ (lay.front x ∨ BackwardPass.Ready lay i x) ∨
    Head lay x ∧ BackwardPass.Ready lay i x

/-- The final place of a head. -/
noncomputable def headPos (lay : Layout Int K) (x : Nat) : Nat :=
  topPos lay.n lay.pos (Head lay) x

open Classical in
/-- Where the array holds an element at index `i` of the scan. -/
noncomputable def slot (lay : Layout Int K) (i x : Nat) : Nat :=
  if Head lay x ∧ i ≤ lay.pos x then headPos lay x else lay.pos x

open Classical in
/-- What it holds there. -/
noncomputable def content (lay : Layout Int K) (i x : Nat) : Int :=
  if Head lay x ∧ lay.pos x < i then -(x : Int) else x

variable {lay : Layout Int K} {i x y : Nat}

theorem spread_head (lay : Layout Int K) : Spread lay.n lay.pos (Head lay) where
  lt h := lay.back_lt h.1
  pos_lt h := lay.pos_lt (.inr h.1)
  inj h h' := lay.pos_inj (.inr h.1) (.inr h'.1)

theorem Live.mem (h : Live lay i x) : lay.Mem x :=
  h.elim (fun h => h.2.2.imp_right And.left) fun h => .inr h.1.1

theorem Live.head_or_lt (h : Live lay i x) : Head lay x ∨ lay.pos x < i :=
  h.elim (fun h => .inr h.2.1) fun h => .inl h.1

theorem slot_scanned (hx : Head lay x) (h : i ≤ lay.pos x) : slot lay i x = headPos lay x := by
  rw [slot, if_pos ⟨hx, h⟩]

theorem slot_unscanned (h : lay.pos x < i) : slot lay i x = lay.pos x := by
  rw [slot, if_neg (by omega)]

/-- No two elements share a slot: the packed ones lie above the scan. -/
theorem slot_inj (hx : lay.Mem x) (hx' : Head lay x ∨ lay.pos x < i) (hy : lay.Mem y)
    (hy' : Head lay y ∨ lay.pos y < i) (h : slot lay i x = slot lay i y) : x = y := by
  have hup : ∀ {z}, Head lay z → lay.pos z ≤ headPos lay z :=
    fun hz => (spread_head lay).pos_le_topPos hz
  by_cases hxi : lay.pos x < i
  · rw [slot_unscanned hxi] at h
    by_cases hyi : lay.pos y < i
    · rw [slot_unscanned hyi] at h
      exact lay.pos_inj hx hy h
    · have hhead := hy'.resolve_right hyi
      rw [slot_scanned hhead (by omega)] at h
      have := hup hhead
      omega
  · have hxhead := hx'.resolve_right hxi
    rw [slot_scanned hxhead (by omega)] at h
    by_cases hyi : lay.pos y < i
    · rw [slot_unscanned hyi] at h
      have := hup hxhead
      omega
    · have hyhead := hy'.resolve_right hyi
      rw [slot_scanned hyhead (by omega)] at h
      exact (spread_head lay).topPos_inj hxhead hyhead h

theorem slot_succ_of_ne (h : Head lay x → lay.pos x ≠ i) : slot lay i x = slot lay (i + 1) x := by
  unfold slot
  congr 1
  simp only [eq_iff_iff]
  refine and_congr_right fun hx => ?_
  have := h hx
  omega

theorem content_succ_of_ne (h : Head lay x → lay.pos x ≠ i) :
    content lay i x = content lay (i + 1) x := by
  unfold content
  congr 1
  simp only [eq_iff_iff]
  refine and_congr_right fun hx => ?_
  have := h hx
  omega

/-- Nothing changes at an index that places no element. -/
theorem live_skip (hnone : ∀ x, lay.back x → lay.pos (x + 1) ≠ i) (x : Nat) :
    Live lay i x ↔ Live lay (i + 1) x := by
  unfold Live
  rw [BackwardPass.ready_skip hnone x]
  refine or_congr_left (and_congr_right fun hl => and_congr_left fun _ => ?_)
  have hne : lay.pos x ≠ i := fun heq => not_linked_of_none hnone heq hl
  omega

/-- Scanning `x + 1` replaces it by `x`. -/
theorem live_place (hpass : BackwardPass lay) (hx : lay.back x) (z : Nat) :
    Live lay (lay.pos (x + 1)) z ↔
      (Live lay (lay.pos (x + 1) + 1) z ∧ z ≠ x + 1) ∨ z = x := by
  have hlink := linked_succ hx
  have hmem := (hpass.succ hx).1
  have hlt := hpass.pos_lt_succ hx
  have hready := hpass.ready_place hx
  constructor
  · rintro (⟨hl, hpos, hz⟩ | ⟨hhead, hz⟩)
    · have hne : z ≠ x + 1 := by
        rintro rfl
        omega
      rw [hready z, ← or_assoc] at hz
      rcases hz with hz | rfl
      · exact .inl ⟨.inl ⟨hl, by omega, hz⟩, hne⟩
      · exact .inr rfl
    · have hne : z ≠ x + 1 := by
        rintro rfl
        exact hhead.2 hlink
      rw [hready z] at hz
      exact hz.imp_left fun hz => ⟨.inr ⟨hhead, hz⟩, hne⟩
  · rintro (⟨hz | ⟨hhead, hz⟩, hne⟩ | rfl)
    · obtain ⟨hl, hpos, hz⟩ := hz
      refine .inl ⟨hl, ?_, hz.imp_right fun hr => (hready z).mpr (.inl hr)⟩
      have hpos' : lay.pos z ≠ lay.pos (x + 1) := fun heq =>
        hne (lay.pos_inj (hz.imp_right And.left) hmem heq)
      omega
    · exact .inr ⟨hhead, (hready z).mpr (.inl hz)⟩
    · have hr : BackwardPass.Ready lay (lay.pos (z + 1)) z := (hready z).mpr (.inr rfl)
      by_cases hl : Linked lay z
      · exact .inl ⟨hl, hlt, .inr hr⟩
      · exact .inr ⟨⟨hx, hl⟩, hr⟩

end

section

variable {F : Family} {text : Array Int} {textMax : Nat} {haveFreq : Bool}
variable {K : Type} [LinearOrder K] {lay : Layout Int K}

/-- The state of `induceSubS` at index `i`. -/
structure Sinking (F : Family) (text : Array Int) (textMax : Nat) (haveFreq : Bool)
    (lay : Layout Int K) (i : Nat) (st : InduceState × Nat) : Prop where
  sa : Scatter st.1.sa text.size (slot lay i) (Live lay i) (content lay i) (· = 0)
  cursor : Cursor F text textMax haveFreq (fun c => BackwardPass.next lay i (c : Int)) st.1
  top : st.2 = top lay.n lay.pos (Head lay) i

/-- The first character of a back element tells whether it is a head. -/
def Readable (lay : Layout Int K) : Prop :=
  ∀ x, lay.back x → 0 < x ∧ (Head lay x ↔ lay.ch x < lay.ch (x - 1))

theorem Sinking.skip {i : Nat} (hi : i < text.size) {st : InduceState × Nat}
    (hst : Sinking F text textMax haveFreq lay (i + 1) st)
    (hnone : ∀ x, lay.back x → lay.pos (x + 1) ≠ i) (hhead : ∀ y, Head lay y → lay.pos y ≠ i) :
    cell st.1.sa i = 0 ∧ Sinking F text textMax haveFreq lay i st := by
  constructor
  · refine hst.sa.rest_cell i hi fun y hy heq => ?_
    by_cases hyi : lay.pos y < i + 1
    · rw [slot_unscanned hyi] at heq
      rcases hy with hy | hy
      · exact not_linked_of_none hnone heq hy.1
      · exact hhead y hy.1 heq
    · have hyh := hy.head_or_lt.resolve_right hyi
      rw [slot_scanned hyh (by omega), headPos] at heq
      have := (spread_head lay).pos_le_topPos hyh
      omega
  · refine ⟨?_, hst.cursor.congr fun c => BackwardPass.next_skip hnone c, ?_⟩
    · refine hst.sa.forget (fun x hx => ⟨(live_skip hnone x).mp hx, ?_, ?_⟩)
        (fun x hx hnot => absurd ((live_skip hnone x).mpr hx) hnot) fun _ hv => hv
      · exact content_succ_of_ne (hhead x)
      · exact slot_succ_of_ne (hhead x)
    · rw [hst.top, Spread.top_skip hhead]

theorem Sinking.place (h : Input F text textMax) (hfit : Fits text lay)
    (hpass : BackwardPass lay) (hreadable : Readable lay) {x : Nat} (hx : lay.back x)
    {st : InduceState × Nat}
    (hst : Sinking F text textMax haveFreq lay (lay.pos (x + 1) + 1) st) :
    Returns (induceSubSStep F text (F.boff textMax haveFreq) (lay.pos (x + 1)) st)
      (Sinking F text textMax haveFreq lay (lay.pos (x + 1))) := by
  have hn63 := h.size_lt_two_pow
  have hmem := (hpass.succ hx).1
  have hx1 := hfit.lt_size hmem
  have hxn := hfit.lt_size (.inr hx)
  have hlt := hpass.pos_lt_succ hx
  have hpos := hfit.pos_lt_size hmem
  have hisa : lay.pos (x + 1) < st.1.sa.size := by rw [hst.sa.size]; exact hpos
  have hlink := linked_succ hx
  have hlive : Live lay (lay.pos (x + 1) + 1) (x + 1) :=
    .inl ⟨hlink, by omega, hmem.imp_right hpass.ready_of_pos⟩
  have hslot : slot lay (lay.pos (x + 1) + 1) (x + 1) = lay.pos (x + 1) :=
    slot_unscanned (by omega)
  have hcell : cell st.1.sa (lay.pos (x + 1)) = ((x + 1 : Nat) : Int) := by
    have := hst.sa.active_cell _ hlive
    rwa [hslot, content, if_neg fun hc => hc.1.2 hlink] at this
  have hhead : ∀ z, Head lay z → lay.pos z ≠ lay.pos (x + 1) := by
    intro z hz heq
    obtain rfl := lay.pos_inj (.inr hz.1) hmem heq
    exact hz.2 hlink
  obtain ⟨hx0, hchars⟩ := hreadable x hx
  rw [hfit.ch_eq] at hchars
  have hcontent : content lay (lay.pos (x + 1)) x =
      if cell text (x - 1) > cell text x then -(x : Int) else x := by
    unfold content
    congr 1
    simp only [eq_iff_iff, hlt, and_true]
    exact hchars
  have hbounds : -(text.size : Int) ≤ content lay (lay.pos (x + 1)) x ∧
      content lay (lay.pos (x + 1)) x ≤ text.size := by
    unfold content
    split <;> omega
  have hbody : induceSubSStep F text (F.boff textMax haveFreq) (lay.pos (x + 1)) st =
      (placeDown F (F.boff textMax haveFreq) (cell text x) (content lay (lay.pos (x + 1)) x)
        { st.1 with sa := st.1.sa.setIfInBounds (lay.pos (x + 1)) 0 }).bind
          fun st' => some (st', st.2) := by
    have hk : ((x + 1 : Nat) : Int) - 1 = (x : Int) := by omega
    have hk1 : (x : Int) - 1 = ((x - 1 : Nat) : Int) := by omega
    unfold induceSubSStep
    simp only [Option.bind_eq_bind]
    rw [getElem?_eq_cell hisa, hcell, Option.bind_some, if_neg (by omega), put_eq_some _ hisa,
      Option.bind_some, if_neg (by omega), hk, hk1, usize_natCast (by omega),
      usize_natCast (by omega), getElem?_eq_cell hxn, Option.bind_some,
      getElem?_eq_cell (by omega), Option.bind_some, hcontent]
  rw [hbody]
  refine Returns.bind (placeDown_ready_returns h hfit hpass hx (by simpa using hst.sa.size)
    (hst.cursor.with_sa _) hbounds.1 hbounds.2) ?_
  rintro st' ⟨hcur', hsa'⟩
  refine Returns.pure ⟨?_, hcur', ?_⟩
  · -- The scanned entry is cleared, then its predecessor is stored.
    have hcleared := hst.sa.clear (0 : Int) (by rw [hslot]; exact hpos)
      (fun z hz heq => slot_inj hz.mem hz.head_or_lt hmem (.inr (by omega)) heq) rfl
      fun z => Iff.rfl
    rw [hslot] at hcleared
    have hmoved := hcleared.forget (q := slot lay (lay.pos (x + 1)))
      (w := content lay (lay.pos (x + 1)))
      (fun z hz => ⟨hz, content_succ_of_ne (hhead z), slot_succ_of_ne (hhead z)⟩)
      (fun z hz hnot => absurd hz hnot) fun _ hv => hv
    have hslotx : slot lay (lay.pos (x + 1)) x = lay.pos x := slot_unscanned hlt
    rw [hsa', ← hslotx]
    refine hmoved.store _ (by rw [hslotx]; omega) (fun z hz heq => ?_) rfl (fun _ _ _ => rfl)
      fun z => live_place hpass hx z
    have hz' := (live_place hpass hx z).mpr (.inl hz)
    exact slot_inj hz'.mem hz'.head_or_lt (.inr hx) (.inr hlt) heq
  · rw [hst.top, Spread.top_skip hhead]

theorem Sinking.collect (h : Input F text textMax) (hfit : Fits text lay)
    (hpass : BackwardPass lay) (hreadable : Readable lay) {y : Nat} (hy : Head lay y)
    {st : InduceState × Nat}
    (hst : Sinking F text textMax haveFreq lay (lay.pos y + 1) st) :
    Returns (induceSubSStep F text (F.boff textMax haveFreq) (lay.pos y) st)
      (Sinking F text textMax haveFreq lay (lay.pos y)) := by
  have hspread := spread_head lay
  have hyn := hfit.lt_size (.inr hy.1)
  have hpos := hfit.pos_lt_size (.inr hy.1)
  have hisa : lay.pos y < st.1.sa.size := by rw [hst.sa.size]; exact hpos
  have hy0 := (hreadable y hy.1).1
  have hnone : ∀ x, lay.back x → lay.pos (x + 1) ≠ lay.pos y := by
    intro x hx heq
    obtain rfl := lay.pos_inj (hpass.succ hx).1 (.inr hy.1) heq
    exact hy.2 (linked_succ hx)
  have hlive : Live lay (lay.pos y + 1) y := .inr ⟨hy, hpass.ready_of_pos hy.1⟩
  have hslot : slot lay (lay.pos y + 1) y = lay.pos y := slot_unscanned (by omega)
  have hslot' : slot lay (lay.pos y) y = headPos lay y := slot_scanned hy le_rfl
  have hcell : cell st.1.sa (lay.pos y) = -(y : Int) := by
    have := hst.sa.active_cell _ hlive
    rwa [hslot, content, if_pos ⟨hy, by omega⟩] at this
  have htop : headPos lay y < text.size := (hspread.topPos_lt hy).trans_eq hfit.n_eq
  have hst2 : st.2 = headPos lay y + 1 := by rw [hst.top, hspread.top_succ hy, headPos]
  refine Returns.of_eq (a := ({ st.1 with
    sa := (st.1.sa.setIfInBounds (lay.pos y) 0).setIfInBounds (headPos lay y) (y : Int) },
    headPos lay y)) ?_ ⟨?_, ?_, ?_⟩
  · unfold induceSubSStep
    simp only [Option.bind_eq_bind]
    rw [getElem?_eq_cell hisa, hcell, Option.bind_some, if_neg (by omega), put_eq_some _ hisa,
      Option.bind_some, if_pos (by omega), hst2, require_eq_some (by omega), Option.bind_some,
      neg_neg, h.cast_eq (by omega) (by omega), Nat.add_sub_cancel,
      put_eq_some _ (by simpa [hst.sa.size] using htop), Option.bind_some]
  · have hcleared := hst.sa.clear (0 : Int) (by rw [hslot]; exact hpos)
      (fun z hz heq => slot_inj hz.mem hz.head_or_lt (.inr hy.1) (.inl hy) heq) rfl
      fun z => Iff.rfl
    rw [hslot] at hcleared
    have hne : ∀ z, z ≠ y → Head lay z → lay.pos z ≠ lay.pos y :=
      fun z hzy hz heq => hzy (hspread.inj hz hy heq)
    have hmoved := hcleared.forget (q := slot lay (lay.pos y))
      (w := content lay (lay.pos y))
      (fun z hz => ⟨hz, content_succ_of_ne (hne z hz.2), slot_succ_of_ne (hne z hz.2)⟩)
      (fun z hz hnot => absurd hz hnot) fun _ hv => hv
    have hstored := hmoved.store (x := y) (y : Int) (by rw [hslot']; exact htop)
      (fun z hz heq => ?_) (by rw [content, if_neg (by omega)]) (fun _ _ _ => rfl)
      (fun z => ?_ : ∀ z, Live lay (lay.pos y) z ↔ _)
    · rwa [hslot'] at hstored
    · have hz' := (live_skip hnone z).mpr hz.1
      exact slot_inj hz'.mem hz'.head_or_lt (.inr hy.1) (.inl hy) heq
    · rw [live_skip hnone z]
      constructor
      · intro hz
        by_cases hzy : z = y
        · exact .inr hzy
        · exact .inl ⟨hz, hzy⟩
      · rintro (hz | rfl)
        · exact hz.1
        · exact hlive
  · exact (hst.cursor.congr fun c => BackwardPass.next_skip hnone c).with_sa _
  · exact (hspread.top_self hy).symm

theorem induceSubSStep_returns (h : Input F text textMax) (hfit : Fits text lay)
    (hpass : BackwardPass lay) (hreadable : Readable lay) {i : Nat} (hi : i < text.size)
    {st : InduceState × Nat} (hst : Sinking F text textMax haveFreq lay (i + 1) st) :
    Returns (induceSubSStep F text (F.boff textMax haveFreq) i st)
      (Sinking F text textMax haveFreq lay i) := by
  by_cases hex : ∃ x, lay.back x ∧ lay.pos (x + 1) = i
  · obtain ⟨x, hx, rfl⟩ := hex
    exact hst.place h hfit hpass hreadable hx
  by_cases hhead : ∃ y, Head lay y ∧ lay.pos y = i
  · obtain ⟨y, hy, rfl⟩ := hhead
    exact hst.collect h hfit hpass hreadable hy
  · obtain ⟨hzero, hskip⟩ := hst.skip hi (fun x hx heq => hex ⟨x, hx, heq⟩)
      fun y hy heq => hhead ⟨y, hy, heq⟩
    have hread : st.1.sa[i]? = some (cell st.1.sa i) :=
      getElem?_eq_cell (by rw [hst.sa.size]; exact hi)
    exact Returns.of_eq (by simp [induceSubSStep, hread, hzero]) hskip

/-- After `induceSubS` the heads stand in order at the high end of `sa`. -/
theorem induceSubS_returns (h : Input F text textMax) (htm : 0 < textMax) (hfit : Fits text lay)
    (hpass : BackwardPass lay) (hreadable : Readable lay) {sa tmp : Array Int}
    (hsa : Scatter sa text.size lay.pos (fun x => lay.front x ∧ Linked lay x)
      (fun x => (x : Int)) (· = 0))
    (ht : Tables F text textMax haveFreq tmp) :
    Returns (induceSubS F text sa textMax tmp haveFreq) fun r =>
      Tables F text textMax haveFreq r.2 ∧
        Scatter r.1 text.size (headPos lay) (Head lay) (fun x => (x : Int)) (· = 0) := by
  unfold induceSubS
  refine Returns.bind (bucketMax_returns h htm ht) ?_
  rintro tmp₁ ⟨ht₁, hb₁⟩
  have hnotready : ∀ {x}, ¬BackwardPass.Ready lay text.size x := by
    rw [← hfit.n_eq]
    exact hpass.not_ready_end
  have hlive : ∀ x, Live lay text.size x ↔ lay.front x ∧ Linked lay x := by
    intro x
    constructor
    · rintro (⟨hl, -, hx⟩ | ⟨-, hr⟩)
      · exact ⟨hx.resolve_right hnotready, hl⟩
      · exact absurd hr hnotready
    · exact fun hx => .inl ⟨hx.2, hfit.pos_lt_size (.inl hx.1), .inl hx.1⟩
  have hend : Sinking F text textMax haveFreq lay text.size
      (⟨sa, tmp₁, 0, cell tmp₁ (F.boff textMax haveFreq + 0)⟩, sa.size) := by
    refine ⟨hsa.forget (fun x hx => ⟨(hlive x).mp hx, ?_, ?_⟩)
      (fun x hx hnot => absurd ((hlive x).mpr hx) hnot) fun _ hv => hv, ?_, ?_⟩
    · rw [content, if_neg fun hc => lay.not_back ((hlive x).mp hx).1 hc.1.1]
    · exact slot_unscanned (hfit.pos_lt_size (.inl ((hlive x).mp hx).1))
    · refine (Cursor.of_table ht₁ hb₁ htm).congr fun c => ?_
      rw [← hfit.n_eq, hpass.next_end, hfit.stop_eq]
    · have := (spread_head lay).top_end
      rw [hfit.n_eq] at this ⊢
      rw [this, hsa.size]
  have hread : tmp₁[F.boff textMax haveFreq + usize 0]? =
      some (cell tmp₁ (F.boff textMax haveFreq + 0)) :=
    getElem?_eq_cell (ht₁.boff_add_lt htm)
  simp only [Option.bind_eq_bind]
  rw [hread, Option.bind_some]
  refine Returns.bind (m := Sinking F text textMax haveFreq lay 0) ?_ ?_
  · nth_rewrite 1 [hsa.size]
    exact forDown_returns (Sinking F text textMax haveFreq lay) text.size _ hend
      fun i st hi hst => induceSubSStep_returns h hfit hpass hreadable hi hst
  · rintro ⟨st, top⟩ hst
    refine Returns.pure ⟨hst.cursor.tables, hst.sa.forget (fun x hx => ⟨?_, ?_, ?_⟩)
      (fun x hx hnot => ?_) fun _ hv => hv⟩
    · exact .inr ⟨hx, hx.1, Nat.zero_le _⟩
    · rw [content, if_neg (by omega)]
    · rw [slot_scanned hx (Nat.zero_le _)]
    · exact absurd (hx.elim (fun hl => by omega) And.left) hnot

end

end DirtybirdMiner.Sais.InduceSubS
