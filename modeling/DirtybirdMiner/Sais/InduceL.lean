import DirtybirdMiner.Sais.LmsScan

/-!
The two forward passes, `induceSubL` and `induceL`.  At index `i` of the scan
the array holds the back elements of the layout and the front elements whose
successors lie below `i`, every one at its position in the layout.
-/

namespace DirtybirdMiner.Sais.InduceL

open DirtybirdMiner.Lib
open DirtybirdMiner.Lib.Checked
open DirtybirdMiner.Lib.BucketLayout
open DirtybirdMiner.Lib.InducedSort
open DirtybirdMiner.Lib.SuffixOrder
open DirtybirdMiner.Lib.LmsLayouts
open DirtybirdMiner.Sais.Model
open DirtybirdMiner.Sais.Buckets
open DirtybirdMiner.Sais.LmsScan

/-- The layout is one of the text's positions. -/
structure Fits {K : Type} [LinearOrder K] (text : Array Int) (lay : Layout Int K) : Prop where
  n_eq : lay.n = text.size
  ch_eq : lay.ch = cell text

/-- The bucket table with the cached entry in place of the stored one. -/
structure Cursor (F : Family) (text : Array Int) (textMax : Nat) (haveFreq : Bool)
    (index : Nat → Nat) (st : InduceState) : Prop where
  tables : Tables F text textMax haveFreq st.tmp
  cB : ∃ c : Nat, c < textMax ∧ st.cB = c ∧ st.b = index c
  bucket : ∀ c : Nat, c < textMax → st.cB ≠ c →
    cell st.tmp (F.boff textMax haveFreq + c) = index c

section

variable {F : Family} {text : Array Int} {textMax : Nat} {haveFreq : Bool}

theorem Cursor.congr {index index' : Nat → Nat} {st : InduceState}
    (hc : Cursor F text textMax haveFreq index st) (h : ∀ c, index' c = index c) :
    Cursor F text textMax haveFreq index' st := by
  rwa [show index' = index from funext h]

theorem Cursor.with_sa {index : Nat → Nat} {st : InduceState}
    (hc : Cursor F text textMax haveFreq index st) (sa : Array Int) :
    Cursor F text textMax haveFreq index { st with sa := sa } :=
  ⟨hc.tables, hc.cB, hc.bucket⟩

theorem Cursor.of_table {index : Nat → Nat} {sa tmp : Array Int} {c : Nat}
    (ht : Tables F text textMax haveFreq tmp)
    (hb : BucketTable F textMax haveFreq index tmp) (hc : c < textMax) :
    Cursor F text textMax haveFreq index
      ⟨sa, tmp, c, cell tmp (F.boff textMax haveFreq + c)⟩ :=
  ⟨ht, ⟨c, hc, rfl, hb c hc⟩, fun d hd _ => hb d hd⟩

theorem selectBucket_returns (h : Input F text textMax) {index : Nat → Nat} {st : InduceState}
    (hcur : Cursor F text textMax haveFreq index st) {x : Nat} (hx : x < text.size) :
    Returns (selectBucket (F.boff textMax haveFreq) (cell text x) st) fun st' =>
      Cursor F text textMax haveFreq index st' ∧ st'.sa = st.sa ∧
        st'.cB = code text x ∧ st'.b = index (code text x) := by
  have hcode := h.code_lt hx
  have htm := h.textMax_lt
  obtain ⟨d, hd, hcB, hb⟩ := hcur.cB
  unfold selectBucket
  rw [h.usize_cell hx, h.cell_eq_code hx, hcB, usize_natCast (by omega)]
  by_cases hsame : d = code text x
  · subst hsame
    rw [if_neg (by simp)]
    exact Returns.pure ⟨hcur, rfl, hcB, hb⟩
  · rw [if_pos (by simpa using hsame)]
    have hlt := hcur.tables.boff_add_lt hd
    have hlt' := (hcur.tables.set (by omega) (c := d) st.b).boff_add_lt hcode
    have hread : cell (st.tmp.setIfInBounds (F.boff textMax haveFreq + d) st.b)
        (F.boff textMax haveFreq + code text x) = index (code text x) := by
      rw [cell_set_ne _ (by omega)]
      exact hcur.bucket _ hcode (by rw [hcB]; omega)
    refine Returns.of_eq (a := { st with
      tmp := st.tmp.setIfInBounds (F.boff textMax haveFreq + d) st.b
      cB := code text x
      b := index (code text x) }) ?_ ⟨⟨hcur.tables.set (by omega) _, ?_, ?_⟩, rfl, rfl, rfl⟩
    · rw [put_eq_some _ hlt]
      simp only [Option.bind_eq_bind, Option.bind_some]
      rw [getElem?_eq_cell hlt', hread, Option.bind_some]
    · exact ⟨_, hcode, rfl, rfl⟩
    · intro e he hne
      rw [cell_set _ hlt]
      split
      · rename_i heq
        obtain rfl : e = d := by omega
        exact hb
      · exact hcur.bucket e he (by rw [hcB]; omega)

/-- Moving the bound of the cached bucket. -/
theorem Cursor.move {index index' : Nat → Nat} {st : InduceState} {c : Nat} {b : Int}
    (hcur : Cursor F text textMax haveFreq index st) (hc : c < textMax) (hcB : st.cB = c)
    (hb : b = index' c) (hne : ∀ d, d ≠ c → index' d = index d) (sa : Array Int) :
    Cursor F text textMax haveFreq index' { st with sa := sa, b := b } := by
  refine ⟨hcur.tables, ⟨c, hc, hcB, hb⟩, fun d hd hdc => ?_⟩
  have hdc' : st.cB ≠ d := hdc
  rw [hcB] at hdc'
  rw [hne d (by omega)]
  exact hcur.bucket d hd hdc

theorem placeUp_returns (h : Input F text textMax) {index g : Nat → Nat}
    {st : InduceState} (hcur : Cursor F text textMax haveFreq index st)
    (hsa : st.sa.size = text.size) {x : Nat} (hx : x < text.size)
    (hlt : index (code text x) < text.size) (hself : g (code text x) = index (code text x) + 1)
    (hne : ∀ d, d ≠ code text x → g d = index d)
    {k : Int} (hlo : -(text.size : Int) ≤ k) (hhi : k ≤ text.size) :
    Returns (placeUp F (F.boff textMax haveFreq) (cell text x) k st) fun st' =>
      Cursor F text textMax haveFreq g st' ∧
        st'.sa = st.sa.setIfInBounds (index (code text x)) k := by
  unfold placeUp
  refine Returns.bind (selectBucket_returns h hcur hx) ?_
  rintro st₁ ⟨hcur₁, hsa₁, hcB, hb⟩
  have hn63 := h.size_lt_two_pow
  refine Returns.of_eq (a := { st₁ with
    sa := st.sa.setIfInBounds (index (code text x)) k
    b := st₁.b + 1 }) ?_ ⟨hcur₁.move (h.code_lt hx) hcB (by rw [hb, hself]; rfl) hne _, rfl⟩
  rw [hb, usize_natCast (by omega), hsa₁, h.cast_eq hlo hhi, put_eq_some _ (by omega)]
  simp only [Option.bind_eq_bind, Option.bind_some]
  rw [h.checked_eq (by omega) (by omega), Option.bind_some]

/-- An index carries the mark of an element that has no front predecessor when
the character before it is smaller. -/
def Marked (text : Array Int) (x : Nat) : Prop :=
  0 < x ∧ cell text (x - 1) < cell text x

open Classical in
/-- What the forward passes store for a front element. -/
noncomputable def signed (text : Array Int) (x : Nat) : Int :=
  if Marked text x then -(x : Int) else x

theorem signed_bounds {x : Nat} (hx : x < text.size) :
    -(text.size : Int) ≤ signed text x ∧ signed text x ≤ text.size := by
  unfold signed
  split <;> omega

theorem signed_pos_iff {x : Nat} : 0 < signed text x ↔ 0 < x ∧ ¬Marked text x := by
  unfold signed
  split <;> simp [*]

variable {K : Type} [LinearOrder K] {lay : Layout Int K}

theorem Fits.start_eq (hfit : Fits text lay) (c : Nat) : lay.start c = minIndex text c := by
  rw [Layout.start, minIndex, hfit.n_eq, hfit.ch_eq]

theorem Fits.stop_eq (hfit : Fits text lay) (c : Nat) : lay.stop c = maxIndex text c := by
  rw [Layout.stop, maxIndex, hfit.n_eq, hfit.ch_eq]

theorem Fits.ch_eq_code (hfit : Fits text lay) (h : Input F text textMax) {x : Nat}
    (hx : x < text.size) : lay.ch x = (code text x : Int) := by
  rw [hfit.ch_eq, h.cell_eq_code hx]

theorem Fits.lt_size (hfit : Fits text lay) {x : Nat} (hx : lay.Mem x) : x < text.size := by
  have := hx.lt
  rwa [hfit.n_eq] at this

theorem Fits.pos_lt_size (hfit : Fits text lay) {x : Nat} (hx : lay.Mem x) :
    lay.pos x < text.size := by
  have := lay.pos_lt hx
  rwa [hfit.n_eq] at this

/-- The state of a forward pass at index `i`. -/
structure Forward (F : Family) (text : Array Int) (textMax : Nat) (haveFreq : Bool)
    (lay : Layout Int K) (value : Nat → Int) (i : Nat) (st : InduceState) : Prop where
  sa : Scatter st.sa text.size lay.pos (fun x => lay.back x ∨ ForwardPass.Ready lay i x)
    value (· = 0)
  cursor : Cursor F text textMax haveFreq (fun c => ForwardPass.next lay i (c : Int)) st

/-- Placing the element that becomes ready, after the scanned entry itself has
been given its new value. -/
theorem Forward.place (h : Input F text textMax) (hfit : Fits text lay)
    (hpass : ForwardPass lay) {value value' : Nat → Int} {x : Nat} (hx : lay.front x)
    (hn : x + 1 ≠ lay.n) {st : InduceState}
    (hsa : Scatter st.sa text.size lay.pos
      (fun y => lay.back y ∨ ForwardPass.Ready lay (lay.pos (x + 1)) y) value (· = 0))
    (hcur : Cursor F text textMax haveFreq
      (fun c => ForwardPass.next lay (lay.pos (x + 1)) (c : Int)) st)
    (hself : value' x = signed text x)
    (hvalue : ∀ y, y ≠ x → lay.back y ∨ ForwardPass.Ready lay (lay.pos (x + 1)) y →
      value' y = value y) :
    Returns (placeUp F (F.boff textMax haveFreq) (cell text x) (signed text x) st)
      (Forward F text textMax haveFreq lay value' (lay.pos (x + 1) + 1)) := by
  have hxn := hfit.lt_size (.inl hx)
  have hposlt := hfit.pos_lt_size (.inl hx)
  have hnext := hpass.next_eq_pos hx hn
  rw [hfit.ch_eq_code h hxn] at hnext
  refine (placeUp_returns h hcur hsa.size hxn (by rw [hnext]; exact hposlt)
    (g := fun c => ForwardPass.next lay (lay.pos (x + 1) + 1) (c : Int)) ?_ ?_
    (signed_bounds hxn).1 (signed_bounds hxn).2).mono ?_
  · rw [hpass.next_place hx hn, if_pos (hfit.ch_eq_code h hxn).symm]
  · intro d hd
    rw [hpass.next_place hx hn, if_neg]
    rw [hfit.ch_eq_code h hxn]
    omega
  · rintro st' ⟨hcur', hsa'⟩
    refine ⟨?_, hcur'⟩
    rw [hsa', hnext]
    have hinj : ∀ y, lay.back y ∨ ForwardPass.Ready lay (lay.pos (x + 1)) y →
        lay.pos y = lay.pos x → y = x := by
      intro y hy heq
      exact lay.pos_inj (hy.elim .inr fun hr => .inl hr.1) (.inl hx) heq
    refine hsa.store _ hposlt hinj hself (fun y hy hne => hvalue y hne hy) fun y => ?_
    rw [hpass.ready_place hx hn]
    exact or_assoc.symm

/-- The state before the scan: the implicit end of the text has placed the last
element. -/
theorem placeLast_returns (h : Input F text textMax) (hfit : Fits text lay)
    (hpass : ForwardPass lay) (hn : 2 ≤ text.size) {sa tmp : Array Int} {v : Nat → Int}
    (hsa : Scatter sa text.size lay.pos lay.back v (· = 0))
    (hvalue : v (text.size - 1) = signed text (text.size - 1))
    (ht : Tables F text textMax haveFreq tmp)
    (hb : BucketTable F textMax haveFreq (minIndex text) tmp) :
    Returns (placeLast F text sa tmp (F.boff textMax haveFreq))
      (Forward F text textMax haveFreq lay v 0) := by
  have hlast := hpass.last
  have hposlast := hpass.pos_last
  rw [hfit.n_eq] at hlast hposlast
  have hxn : text.size - 1 < text.size := by omega
  have hcode := h.code_lt hxn
  have hn63 := h.size_lt_two_pow
  have hch := hfit.ch_eq_code h hxn
  rw [hch, hfit.start_eq] at hposlast
  have hposlt := hfit.pos_lt_size (.inl hlast.2)
  have hk : ((text.size : Int) - 1) = ((text.size - 1 : Nat) : Int) := by omega
  have hk1 : ((text.size - 1 : Nat) : Int) - 1 = ((text.size - 1 - 1 : Nat) : Int) := by omega
  have hsigned : (if cell text (text.size - 1 - 1) < cell text (text.size - 1) then
      -((text.size - 1 : Nat) : Int) else ((text.size - 1 : Nat) : Int)) =
        signed text (text.size - 1) := by
    unfold signed Marked
    congr 1
    simp only [eq_iff_iff]
    exact ⟨fun hlt => ⟨by omega, hlt⟩, And.right⟩
  have hcur : Cursor F text textMax haveFreq (minIndex text) ⟨sa, tmp, cell text (text.size - 1),
      cell tmp (F.boff textMax haveFreq + code text (text.size - 1))⟩ := by
    rw [h.cell_eq_code hxn]
    exact Cursor.of_table ht hb hcode
  have hread : placeLast F text sa tmp (F.boff textMax haveFreq) =
      placeUp F (F.boff textMax haveFreq) (cell text (text.size - 1))
        (signed text (text.size - 1)) ⟨sa, tmp, cell text (text.size - 1),
          cell tmp (F.boff textMax haveFreq + code text (text.size - 1))⟩ := by
    unfold placeLast
    rw [hk]
    simp only [hk1]
    rw [usize_natCast (by omega), usize_natCast (by omega), getElem?_eq_cell (by omega),
      getElem?_eq_cell (by omega)]
    simp only [Option.bind_eq_bind, Option.bind_some]
    rw [h.usize_cell hxn, getElem?_eq_cell (ht.boff_add_lt hcode), Option.bind_some, hsigned]
  rw [hread]
  refine (placeUp_returns h hcur hsa.size hxn (by rw [← hposlast]; exact hposlt)
    (g := fun c => ForwardPass.next lay 0 (c : Int)) ?_ ?_
    (signed_bounds hxn).1 (signed_bounds hxn).2).mono ?_
  · rw [hpass.next_zero, hfit.n_eq, if_pos hch.symm, hfit.start_eq]
  · intro d hd
    rw [hpass.next_zero, hfit.n_eq, if_neg (by rw [hch]; omega), hfit.start_eq]
  · rintro st' ⟨hcur', hsa'⟩
    refine ⟨?_, hcur'⟩
    rw [hsa', ← hposlast]
    refine hsa.store _ hposlt (fun y hy heq => lay.pos_inj (.inr hy) (.inl hlast.2) heq) hvalue
      (fun _ _ _ => rfl) fun y => ?_
    rw [hpass.ready_zero, hfit.n_eq]

/-- Reading the two characters in front of a scanned index. -/
theorem signed_eq_ite {x : Nat} (hx : 0 < x) :
    signed text x = if cell text (x - 1) < cell text x then -(x : Int) else x := by
  unfold signed Marked
  simp only [hx, true_and]

open Classical in
/-- What `induceL` keeps for an element. -/
noncomputable def kept (text : Array Int) (lay : Layout Int K) (x : Nat) : Int :=
  if lay.front x then signed text x else x

theorem kept_front {x : Nat} (hx : lay.front x) : kept text lay x = signed text x := by
  rw [kept, if_pos hx]

theorem kept_back {x : Nat} (hx : lay.back x) : kept text lay x = x := by
  rw [kept, if_neg fun hf => lay.not_back hf hx]

/-- A scanned element whose predecessor is to be placed is stored unmarked. -/
theorem kept_succ (hfit : Fits text lay) (hpass : ForwardPass lay) {x : Nat}
    (hx : lay.front x) (hn : x + 1 ≠ lay.n) : kept text lay (x + 1) = ((x + 1 : Nat) : Int) := by
  obtain ⟨hmem, hch⟩ := (hpass.succ hx).resolve_left hn
  rcases hmem with hf | hb
  · rw [kept_front hf, signed, if_neg]
    rintro ⟨-, hlt⟩
    rw [hfit.ch_eq] at hch
    rw [Nat.add_sub_cancel] at hlt
    omega
  · exact kept_back hb

theorem induceLStep_returns (h : Input F text textMax) (hfit : Fits text lay)
    (hpass : ForwardPass lay) {i : Nat} (hi : i < text.size) {st : InduceState}
    (hst : Forward F text textMax haveFreq lay (kept text lay) i st) :
    Returns (induceLStep F text (F.boff textMax haveFreq) i st)
      (Forward F text textMax haveFreq lay (kept text lay) (i + 1)) := by
  have hread : st.sa[i]? = some (cell st.sa i) := getElem?_eq_cell (by rw [hst.sa.size]; exact hi)
  have hn63 := h.size_lt_two_pow
  have hskip : (∀ x, lay.front x → x + 1 ≠ lay.n → lay.pos (x + 1) ≠ i) → cell st.sa i ≤ 0 →
      Returns (induceLStep F text (F.boff textMax haveFreq) i st)
        (Forward F text textMax haveFreq lay (kept text lay) (i + 1)) := by
    intro hnone hle
    refine Returns.of_eq (a := st) (by simp [induceLStep, hread, hle]) ⟨?_, ?_⟩
    · exact hst.sa.congr (fun x => or_congr_right (ForwardPass.ready_skip hnone x)) fun _ _ => rfl
    · exact hst.cursor.congr fun c => ForwardPass.next_skip hnone c
  rcases hpass.scan_cases i with hnone | ⟨y, hy, rfl, hfree⟩ | ⟨x, hx, hn, rfl⟩
  · refine hskip (hpass.none_of_empty hnone) ?_
    rw [hst.sa.rest_cell i hi fun y hy => hnone y (hy.elim .inr fun hr => .inl hr.1)]
  · refine hskip (hpass.none_of_free hy hfree) ?_
    rw [hst.sa.active_cell y (.inr (hpass.ready_of_pos hy)), kept_front hy]
    by_contra hpos
    obtain ⟨h0, hnm⟩ := signed_pos_iff.mp (not_le.mp hpos)
    rw [hfit.ch_eq] at hfree
    exact hnm ⟨h0, hfree.resolve_left (by omega)⟩
  · have hxn := hfit.lt_size (.inl hx)
    have hmem := ((hpass.succ hx).resolve_left hn).1
    have hcell : cell st.sa (lay.pos (x + 1)) = ((x + 1 : Nat) : Int) := by
      rw [hst.sa.active_cell (x + 1), kept_succ hfit hpass hx hn]
      exact hmem.elim (fun hf => .inr (hpass.ready_of_pos hf)) .inl
    have hbody : induceLStep F text (F.boff textMax haveFreq) (lay.pos (x + 1)) st =
        placeUp F (F.boff textMax haveFreq) (cell text x) (signed text x) st := by
      have hk : ((x + 1 : Nat) : Int) - 1 = (x : Int) := by omega
      unfold induceLStep
      rw [hread, hcell]
      simp only [Option.bind_eq_bind, Option.bind_some]
      rw [if_neg (by omega), hk, usize_natCast (by omega), getElem?_eq_cell hxn, Option.bind_some]
      by_cases h0 : 0 < x
      · rw [if_pos (by omega), show (x : Int) - 1 = ((x - 1 : Nat) : Int) by omega,
          usize_natCast (by omega), getElem?_eq_cell (by omega), Option.bind_some,
          signed_eq_ite h0]
      · obtain rfl : x = 0 := by omega
        simp [signed, Marked]
    rw [hbody]
    exact Forward.place h hfit hpass hx hn hst.sa hst.cursor (kept_front hx) fun _ _ _ => rfl

/-- After `induceL` every front element is in place too, marked when its
predecessor is not a front element. -/
theorem induceL_returns (h : Input F text textMax) (htm : 0 < textMax) (hfit : Fits text lay)
    (hpass : ForwardPass lay) (hn : 2 ≤ text.size) {sa tmp : Array Int}
    (hsa : Scatter sa text.size lay.pos lay.back (fun x => (x : Int)) (· = 0))
    (ht : Tables F text textMax haveFreq tmp) :
    Returns (induceL F text sa textMax tmp haveFreq) fun r =>
      Tables F text textMax haveFreq r.2 ∧
        Scatter r.1 text.size lay.pos lay.Mem (kept text lay) (· = 0) := by
  have hlast := hpass.last.2
  rw [hfit.n_eq] at hlast
  unfold induceL
  refine Returns.bind (bucketMin_returns h htm ht) ?_
  rintro tmp₁ ⟨ht₁, hb₁⟩
  refine Returns.bind (placeLast_returns h hfit hpass hn
    (hsa.congr (fun _ => Iff.rfl) fun x hx => kept_back hx)
    (kept_front hlast) ht₁ hb₁) ?_
  intro st hst
  rw [hst.sa.size]
  refine Returns.bind (forUp_returns (Forward F text textMax haveFreq lay (kept text lay))
    0 text.size st hst fun i st _ hi hst => ?_) ?_
  · exact induceLStep_returns h hfit hpass (by omega) hst
  · intro st' hst'
    rw [Nat.zero_add] at hst'
    refine Returns.pure ⟨hst'.cursor.tables, hst'.sa.congr (fun x => ?_) fun _ _ => rfl⟩
    constructor
    · rintro (hf | hb)
      · have := hpass.ready_end hf
        rw [hfit.n_eq] at this
        exact .inr this
      · exact .inl hb
    · exact fun hx => hx.elim .inr fun hr => .inl hr.1

open Classical in
/-- What `induceSubL` keeps for an element: once scanned, only the marked ones,
without their mark. -/
noncomputable def swept (text : Array Int) (lay : Layout Int K) (i x : Nat) : Int :=
  if lay.pos x < i then if lay.front x ∧ Marked text x then x else 0
  else kept text lay x

theorem swept_unscanned {i x : Nat} (h : i ≤ lay.pos x) :
    swept text lay i x = kept text lay x := by
  rw [swept, if_neg (by omega)]

theorem swept_succ_of_ne {i x : Nat} (h : lay.pos x ≠ i) :
    swept text lay (i + 1) x = swept text lay i x := by
  unfold swept
  congr 1
  simp only [eq_iff_iff]
  omega

theorem induceSubLStep_returns (h : Input F text textMax) (hfit : Fits text lay)
    (hpass : ForwardPass lay) (hpos : ∀ x, lay.front x → 0 < x) {i : Nat} (hi : i < text.size)
    {st : InduceState} (hst : Forward F text textMax haveFreq lay (swept text lay i) i st) :
    Returns (induceSubLStep F text (F.boff textMax haveFreq) i st)
      (Forward F text textMax haveFreq lay (swept text lay (i + 1)) (i + 1)) := by
  have hisa : i < st.sa.size := by rw [hst.sa.size]; exact hi
  have hread : st.sa[i]? = some (cell st.sa i) := getElem?_eq_cell hisa
  have hn63 := h.size_lt_two_pow
  rcases hpass.scan_cases i with hnone | ⟨y, hy, rfl, hfree⟩ | ⟨x, hx, hn, rfl⟩
  · have hzero := hst.sa.rest_cell i hi fun y hy => hnone y (hy.elim .inr fun hr => .inl hr.1)
    have hnone' := hpass.none_of_empty hnone
    refine Returns.of_eq (a := st) (by simp [induceSubLStep, hread, hzero]) ⟨?_, ?_⟩
    · refine hst.sa.congr (fun x => or_congr_right (ForwardPass.ready_skip hnone' x)) fun x hx => ?_
      exact swept_succ_of_ne (hnone x (hx.elim .inr fun hr => .inl hr.1))
    · exact hst.cursor.congr fun c => ForwardPass.next_skip hnone' c
  · have hyn := hfit.lt_size (.inl hy)
    have hmark : Marked text y := by
      rw [hfit.ch_eq] at hfree
      exact ⟨hpos y hy, hfree.resolve_left (hpos y hy).ne'⟩
    have hcell : cell st.sa (lay.pos y) = -(y : Int) := by
      rw [hst.sa.active_cell y (.inr (hpass.ready_of_pos hy)), swept_unscanned le_rfl,
        kept_front hy, signed, if_pos hmark]
    have hnone := hpass.none_of_free hy hfree
    have hy0 := hpos y hy
    refine Returns.of_eq (a := { st with sa := st.sa.setIfInBounds (lay.pos y) (y : Int) }) ?_
      ⟨?_, ?_⟩
    · unfold induceSubLStep
      rw [hread, hcell]
      simp only [Option.bind_eq_bind, Option.bind_some]
      rw [if_neg (by omega), if_pos (by omega), neg_neg, h.cast_eq (by omega) (by omega),
        put_eq_some _ hisa, Option.bind_some]
    · refine hst.sa.store _ hi (fun z hz heq => ?_) ?_ (fun z hz hne => ?_) fun z => ?_
      · exact lay.pos_inj (hz.elim .inr fun hr => .inl hr.1) (.inl hy) heq
      · rw [swept, if_pos (by omega), if_pos ⟨hy, hmark⟩]
      · refine swept_succ_of_ne fun heq => hne ?_
        exact lay.pos_inj (hz.elim .inr fun hr => .inl hr.1) (.inl hy) heq
      · rw [ForwardPass.ready_skip hnone z]
        refine (or_iff_left_of_imp ?_).symm
        rintro rfl
        exact .inr (hpass.ready_of_pos hy)
    · exact (hst.cursor.congr fun c => ForwardPass.next_skip hnone c).with_sa _
  · have hxn := hfit.lt_size (.inl hx)
    have hx0 := hpos x hx
    have hmem := ((hpass.succ hx).resolve_left hn).1
    have hactive : lay.back (x + 1) ∨ ForwardPass.Ready lay (lay.pos (x + 1)) (x + 1) :=
      hmem.elim (fun hf => .inr (hpass.ready_of_pos hf)) .inl
    have hcell : cell st.sa (lay.pos (x + 1)) = ((x + 1 : Nat) : Int) := by
      rw [hst.sa.active_cell _ hactive, swept_unscanned le_rfl, kept_succ hfit hpass hx hn]
    have hunmarked : ¬(lay.front (x + 1) ∧ Marked text (x + 1)) := by
      rintro ⟨hf, hm⟩
      have := kept_succ hfit hpass hx hn
      rw [kept_front hf, signed, if_pos hm] at this
      omega
    have hbody : induceSubLStep F text (F.boff textMax haveFreq) (lay.pos (x + 1)) st =
        placeUp F (F.boff textMax haveFreq) (cell text x) (signed text x)
          { st with sa := st.sa.setIfInBounds (lay.pos (x + 1)) 0 } := by
      have hk : ((x + 1 : Nat) : Int) - 1 = (x : Int) := by omega
      have hk1 : (x : Int) - 1 = ((x - 1 : Nat) : Int) := by omega
      unfold induceSubLStep
      rw [hread, hcell]
      simp only [Option.bind_eq_bind, Option.bind_some]
      rw [if_neg (by omega), if_neg (by omega), put_eq_some _ hisa, Option.bind_some, hk, hk1,
        usize_natCast (by omega), usize_natCast (by omega), getElem?_eq_cell (by omega),
        Option.bind_some, getElem?_eq_cell hxn, Option.bind_some, signed_eq_ite hx0]
    have hcleared := hst.sa.store
      (w := fun y => if y = x + 1 then 0 else swept text lay (lay.pos (x + 1)) y)
      0 hi (fun z hz heq => lay.pos_inj (hz.elim .inr fun hr => .inl hr.1) hmem heq) (if_pos rfl)
      (fun z _ hne => if_neg hne) fun z => (or_iff_left_of_imp fun hz => by rw [hz]; exact hactive).symm
    rw [hbody]
    refine Forward.place h hfit hpass hx hn hcleared (hst.cursor.with_sa _) ?_ fun z hne hz => ?_
    · have hlt := hpass.pos_succ_lt hx hn
      rw [swept_unscanned (by omega), kept_front hx]
    · by_cases hzx : z = x + 1
      · subst hzx
        rw [swept, if_pos (by omega), if_neg hunmarked, if_pos rfl]
      · rw [if_neg hzx]
        refine swept_succ_of_ne fun heq => hzx ?_
        exact lay.pos_inj (hz.elim .inr fun hr => .inl hr.1) hmem heq

/-- After `induceSubL` only the marked front elements are left. -/
theorem induceSubL_returns (h : Input F text textMax) (htm : 0 < textMax) (hfit : Fits text lay)
    (hpass : ForwardPass lay) (hpos : ∀ x, lay.front x → 0 < x) (hn : 2 ≤ text.size)
    {sa tmp : Array Int}
    (hsa : Scatter sa text.size lay.pos lay.back (fun x => (x : Int)) (· = 0))
    (ht : Tables F text textMax haveFreq tmp) :
    Returns (induceSubL F text sa textMax tmp haveFreq) fun r =>
      Tables F text textMax haveFreq r.2 ∧
        Scatter r.1 text.size lay.pos (fun x => lay.front x ∧ Marked text x)
          (fun x => (x : Int)) (· = 0) := by
  have hlast := hpass.last.2
  rw [hfit.n_eq] at hlast
  unfold induceSubL
  refine Returns.bind (bucketMin_returns h htm ht) ?_
  rintro tmp₁ ⟨ht₁, hb₁⟩
  refine Returns.bind (placeLast_returns (v := swept text lay 0) h hfit hpass hn
    (hsa.congr (fun _ => Iff.rfl) fun x hx => ?_) ?_ ht₁ hb₁) ?_
  · rw [swept_unscanned (Nat.zero_le _), kept_back hx]
  · rw [swept_unscanned (Nat.zero_le _), kept_front hlast]
  · intro st hst
    rw [hst.sa.size]
    refine Returns.bind (forUp_returns
      (fun i => Forward F text textMax haveFreq lay (swept text lay i) i)
      0 text.size st hst fun i st _ hi hst => ?_) ?_
    · exact induceSubLStep_returns h hfit hpass hpos (by omega) hst
    · intro st' hst'
      rw [Nat.zero_add] at hst'
      have hscanned : ∀ x, lay.back x ∨ ForwardPass.Ready lay text.size x →
          lay.pos x < text.size := by
        intro x hx
        exact hfit.pos_lt_size (hx.elim .inr fun hr => .inl hr.1)
      refine Returns.pure ⟨hst'.cursor.tables, hst'.sa.forget (fun x hx => ?_)
        (fun x hx hnot => ?_) fun _ hv => hv⟩
      · have hr := hpass.ready_end hx.1
        rw [hfit.n_eq] at hr
        refine ⟨.inr hr, ?_, rfl⟩
        rw [swept, if_pos (hscanned x (.inr hr)), if_pos hx]
      · rw [swept, if_pos (hscanned x hx), if_neg hnot]

end

end DirtybirdMiner.Sais.InduceL
