import DirtybirdMiner.Lib.LmsLayouts
import DirtybirdMiner.Sais.Buckets

/-!
The LMS-substring iterator visits the LMS positions from right to left, and
`placeLms` leaves them at the ends of their buckets.
-/

namespace DirtybirdMiner.Sais.LmsScan

open DirtybirdMiner.Lib
open DirtybirdMiner.Lib.Checked
open DirtybirdMiner.Lib.Count
open DirtybirdMiner.Lib.BucketLayout
open DirtybirdMiner.Lib.SuffixOrder
open DirtybirdMiner.Lib.LmsKeys
open DirtybirdMiner.Lib.LmsLayouts
open DirtybirdMiner.Sais.Model
open DirtybirdMiner.Sais.Buckets

theorem ch_toList (text : Array Int) (x : Nat) : ch text.toList x = cell text x := by
  simp [ch, cell]

theorem ch_toList_eq (text : Array Int) : ch text.toList = cell text :=
  funext (ch_toList text)

theorem stop_eq_maxIndex {F : Family} {text : Array Int} {textMax : Nat}
    (h : Input F text textMax) {x : Nat} (hx : x < text.size) :
    bucketEnd text.toList.length (ch text.toList) (ch text.toList x) =
      maxIndex text (code text x) := by
  rw [maxIndex, ← h.cell_eq_code hx, ch_toList_eq, Array.length_toList]

theorem start_eq_minIndex {F : Family} {text : Array Int} {textMax : Nat}
    (h : Input F text textMax) {x : Nat} (hx : x < text.size) :
    bucketStart text.toList.length (ch text.toList) (ch text.toList x) =
      minIndex text (code text x) := by
  rw [minIndex, ← h.cell_eq_code hx, ch_toList_eq, Array.length_toList]

section

variable {F : Family} {text : Array Int} {textMax : Nat} {haveFreq : Bool}

/-- The invariant of a scan speaks of the positions from `i` on, whose types
are known; the LMS positions found so far are those above `i`. -/
theorem lmsScan_returns (h : Input F text textMax) {σ : Type} {visit : Int → σ → σ}
    {found : Nat → Int → σ → Option σ} (inv : Nat → σ → Prop) (s : σ)
    (hinit : inv text.size s)
    (hskip : ∀ i s, i < text.size → inv (i + 1) s → ¬IsLMS text.toList (i + 1) →
      inv i (visit (cell text (i + 1)) s))
    (hfound : ∀ i s, i + 1 < text.size → inv (i + 1) s → IsLMS text.toList (i + 1) →
      Returns (found (i + 1) (cell text (i + 1)) (visit (cell text (i + 1)) s)) (inv i)) :
    Returns (lmsScan text visit found s) (inv 0) := by
  have hout : cell text text.size = 0 := by simp [cell]
  refine Returns.bind (forDown_returns (fun i (st : Int × Bool × σ) =>
    st.1 = cell text i ∧ (st.2.1 = true ↔ IsS text.toList i) ∧ inv i st.2.2)
    text.size (0, false, s) ⟨hout.symm, ?_, hinit⟩ ?_) ?_
  · refine iff_of_false (by simp) fun hS => ?_
    have := isS_lt_length hS
    rw [Array.length_toList] at this
    omega
  · rintro i ⟨c1, isTypeS, s⟩ hi ⟨hc1, htype, hinv⟩
    simp only at hc1 htype hinv
    subst hc1
    simp only [getElem?_eq_cell hi, Option.bind_eq_bind, Option.bind_some]
    have hnonneg := h.ch_nonneg i hi
    -- Below the last position the type follows from the two characters.
    have hiff : i + 1 < text.size → (IsS text.toList i ↔ cell text i < cell text (i + 1) ∨
        cell text i = cell text (i + 1) ∧ IsS text.toList (i + 1)) := by
      intro hlt
      rw [isS_iff (by simpa using hlt), ch_toList, ch_toList]
    have hlast : ¬i + 1 < text.size → ¬IsS text.toList i ∧ ¬IsS text.toList (i + 1) ∧
        cell text (i + 1) = 0 := by
      intro hge
      refine ⟨fun hS => ?_, fun hS => ?_, ?_⟩
      · have := isS_lt_length hS
        rw [Array.length_toList] at this
        omega
      · have := isS_lt_length hS
        rw [Array.length_toList] at this
        omega
      · rw [show i + 1 = text.size by omega, hout]
    split
    · rename_i hlt
      have hin : i + 1 < text.size := by
        by_contra hge
        have := (hlast hge).2.2
        omega
      have hS : IsS text.toList i := (hiff hin).mpr (.inl hlt)
      exact Returns.pure ⟨rfl, by simpa using hS, hskip i s hi hinv (not_isLMS_succ_of_isS hS)⟩
    · rename_i hge
      split
      · rename_i hfoundCond
        simp only [Bool.and_eq_true, decide_eq_true_eq] at hfoundCond
        have hS1 : IsS text.toList (i + 1) := htype.mp hfoundCond.2
        have hin : i + 1 < text.size := by
          by_contra hge'
          exact (hlast hge').2.1 hS1
        have hL : ¬IsS text.toList i := by
          rw [hiff hin]
          omega
        refine Returns.bind (hfound i s hin hinv (isLMS_succ hL hS1)) ?_
        intro s' hs'
        exact Returns.pure ⟨rfl, by simpa using hL, hs'⟩
      · rename_i hnot
        simp only [Bool.and_eq_true, decide_eq_true_eq, not_and] at hnot
        have hsame : IsS text.toList i ↔ IsS text.toList (i + 1) := by
          by_cases hin : i + 1 < text.size
          · rw [hiff hin]
            by_cases heq : cell text i = cell text (i + 1)
            · simp [heq]
            · have hS1 : ¬IsS text.toList (i + 1) := fun hS =>
                hnot (by omega) (htype.mpr hS)
              simp [heq, hS1, hge]
          · exact iff_of_false (hlast hin).1 (hlast hin).2.1
        refine Returns.pure ⟨rfl, htype.trans hsame.symm, hskip i s hi hinv fun hl => ?_⟩
        exact (isLMS_succ_iff.mp hl).1 (hsame.mpr hl.isS)
  · rintro ⟨c1, isTypeS, s⟩ ⟨-, -, hinv⟩
    exact Returns.pure hinv

theorem bucketTable_set {index index' : Nat → Nat} {tmp : Array Int}
    (hb : BucketTable F textMax haveFreq index tmp) (ht : Tables F text textMax haveFreq tmp)
    {c : Nat} (hc : c < textMax) {v : Int} (hv : v = index' c)
    (hne : ∀ d, d < textMax → d ≠ c → index' d = index d) :
    BucketTable F textMax haveFreq index'
      (tmp.setIfInBounds (F.boff textMax haveFreq + c) v) := by
  intro d hd
  rw [cell_set v (ht.boff_add_lt hc)]
  split
  · rename_i heq
    obtain rfl : d = c := by omega
    exact hv
  · rename_i hdc
    rw [hb d hd, hne d hd (by omega)]

/-- What `placeLms` has done when the LMS positions above `i` are placed. -/
structure Placing (F : Family) (text : Array Int) (textMax : Nat) (haveFreq : Bool) (i : Nat)
    (st : PlaceState) : Prop where
  sa : Scatter st.sa text.size (lmsByIndex text.toList).pos
    (fun x => IsLMS text.toList x ∧ i < x) (fun x => (x : Int)) (· = 0)
  tables : Tables F text textMax haveFreq st.tmp
  bucket : BucketTable F textMax haveFreq (fun c => maxIndex text c - cnt text.size fun y =>
    (IsLMS text.toList y ∧ i < y) ∧ cell text y = c) st.tmp
  numLms : st.numLms = cnt text.size fun x => IsLMS text.toList x ∧ i < x
  lastB : 0 < st.numLms → ∃ x, IsLMS text.toList x ∧ i < x ∧
    (∀ y, IsLMS text.toList y → i < y → x ≤ y) ∧ st.lastB = (lmsByIndex text.toList).pos x

theorem Placing.skip {i : Nat} {st : PlaceState}
    (hp : Placing F text textMax haveFreq (i + 1) st) (hl : ¬IsLMS text.toList (i + 1)) :
    Placing F text textMax haveFreq i st := by
  have hiff : ∀ x, IsLMS text.toList x ∧ i < x ↔ IsLMS text.toList x ∧ i + 1 < x := by
    intro x
    refine and_congr_right fun hx => ?_
    have : x ≠ i + 1 := by rintro rfl; exact hl hx
    omega
  refine ⟨hp.sa.congr hiff fun _ _ => rfl, hp.tables, ?_, ?_, ?_⟩
  · simpa only [hiff] using hp.bucket
  · simpa only [hiff] using hp.numLms
  · intro hpos
    obtain ⟨x, hx, hlt, hleast, hb⟩ := hp.lastB hpos
    refine ⟨x, hx, by omega, fun y hy hiy => hleast y hy ?_, hb⟩
    exact ((hiff y).mp ⟨hy, hiy⟩).2

/-- The bucket bound just above the next LMS position to be placed. -/
theorem bound_eq_pos (h : Input F text textMax) {j : Nat} (hj : IsLMS text.toList j) :
    maxIndex text (code text j) - (cnt text.size fun y =>
      (IsLMS text.toList y ∧ j < y) ∧ cell text y = code text j) =
        (lmsByIndex text.toList).pos j + 1 := by
  have hjn : j < text.size := by have := hj.lt_length; simp at this; omega
  have hpos := (lmsByIndex text.toList).pos_back hj
  have hafter := (lmsByIndex text.toList).after_lt hj
  have hcounts := (lmsByIndex text.toList).counts_le ((lmsByIndex text.toList).ch j)
  have hstop : (lmsByIndex text.toList).stop ((lmsByIndex text.toList).ch j) =
      maxIndex text (code text j) := stop_eq_maxIndex h hjn
  have hcnt : (cnt text.size fun y =>
      (IsLMS text.toList y ∧ j < y) ∧ cell text y = code text j) =
        (lmsByIndex text.toList).after j := by
    rw [lmsByIndex_after, Array.length_toList, ch_toList_eq, h.cell_eq_code hjn]
  rw [hstop] at hpos hcounts
  rw [hcnt, hpos]
  omega

theorem Placing.place (h : Input F text textMax) {i : Nat} {st : PlaceState}
    (hp : Placing F text textMax haveFreq (i + 1) st) (hin : i + 1 < text.size)
    (hl : IsLMS text.toList (i + 1)) :
    Returns (do
      let b ← st.tmp[F.boff textMax haveFreq + usize (cell text (i + 1))]?
      let b ← F.checked (b - 1)
      let tmp ← put st.tmp (F.boff textMax haveFreq + usize (cell text (i + 1))) b
      let sa ← put st.sa (usize b) (F.cast ((i + 1 : Nat) : Int))
      some (⟨sa, tmp, st.numLms + 1, b⟩ : PlaceState)) (Placing F text textMax haveFreq i) := by
  set c := code text (i + 1) with hc
  have hclt : c < textMax := h.code_lt hin
  have hmem : (lmsByIndex text.toList).Mem (i + 1) := .inr hl
  have hpos : (lmsByIndex text.toList).pos (i + 1) < text.size := by
    have := (lmsByIndex text.toList).pos_lt hmem
    simpa [lmsByIndex] using this
  have hbound := bound_eq_pos h hl
  rw [← hc] at hbound
  have hcell := hp.bucket c hclt
  simp only [hbound] at hcell
  push_cast at hcell
  have hn63 := h.size_lt_two_pow
  have hiff : ∀ x, IsLMS text.toList x ∧ i < x ↔
      (IsLMS text.toList x ∧ i + 1 < x) ∨ x = i + 1 := by
    intro x
    constructor
    · rintro ⟨hx, hlt⟩
      by_cases hxi : x = i + 1
      · exact .inr hxi
      · exact .inl ⟨hx, by omega⟩
    · rintro (⟨hx, hlt⟩ | rfl)
      · exact ⟨hx, by omega⟩
      · exact ⟨hl, by omega⟩
  rw [h.usize_cell hin, ← hc]
  refine Returns.of_eq (a := ⟨st.sa.setIfInBounds ((lmsByIndex text.toList).pos (i + 1))
    ((i + 1 : Nat) : Int), st.tmp.setIfInBounds (F.boff textMax haveFreq + c)
      ((lmsByIndex text.toList).pos (i + 1)), st.numLms + 1,
      (lmsByIndex text.toList).pos (i + 1)⟩) ?_ ⟨?_, ?_, ?_, ?_, ?_⟩
  · rw [getElem?_eq_cell (hp.tables.boff_add_lt hclt), hcell]
    simp only [Option.bind_eq_bind, Option.bind_some, add_sub_cancel_right]
    rw [h.checked_eq (by omega) (by omega), Option.bind_some,
      put_eq_some _ (hp.tables.boff_add_lt hclt), Option.bind_some,
      usize_natCast (by omega), put_eq_some _ (by rw [hp.sa.size]; exact hpos),
      Option.bind_some, h.cast_eq (by omega) (by omega)]
  · refine hp.sa.store _ hpos (fun y hy heq => ?_) rfl (fun _ _ _ => rfl) hiff
    exact (lmsByIndex text.toList).pos_inj (.inr hy.1) hmem heq
  · exact hp.tables.set (by omega) _
  · refine bucketTable_set hp.bucket hp.tables hclt ?_ fun d hd hdc => ?_
    · have hins : (cnt text.size fun y => (IsLMS text.toList y ∧ i < y) ∧ cell text y = c) =
          (cnt text.size fun y =>
            (IsLMS text.toList y ∧ i + 1 < y) ∧ cell text y = c) + 1 := by
        refine cnt_insert hin (fun hy => by omega) fun y _ => ?_
        rw [hiff y]
        constructor
        · rintro ⟨hy | rfl, hch⟩
          · exact .inl ⟨hy, hch⟩
          · exact .inr rfl
        · rintro (⟨hy, hch⟩ | rfl)
          · exact ⟨.inl hy, hch⟩
          · exact ⟨.inr rfl, h.cell_eq_code hin⟩
      simp only [hins]
      omega
    · congr 1
      refine cnt_congr fun y _ => and_congr_left fun hch => ?_
      rw [hiff y]
      refine or_iff_left ?_
      rintro rfl
      rw [h.cell_eq_code hin] at hch
      omega
  · simp only
    rw [hp.numLms]
    exact (cnt_insert hin (fun hy => by omega) fun y _ => hiff y).symm
  · intro _
    exact ⟨i + 1, hl, by omega, fun y _ hy => hy, rfl⟩

/-- After `placeLms`: every LMS position at the end of its bucket, but for the
first, which is no end of an LMS-substring, when there are several. -/
theorem placeLms_returns (h : Input F text textMax) (htm : 0 < textMax) {sa tmp : Array Int}
    (hsa : sa.size = text.size) (hzero : ∀ p, p < text.size → cell sa p = 0)
    (ht : Tables F text textMax haveFreq tmp) :
    Returns (placeLms F text sa textMax tmp haveFreq) fun r =>
      r.1 = lmsCount text.toList ∧ Tables F text textMax haveFreq r.2.2 ∧
        Scatter r.2.1 text.size (lmsByIndex text.toList).pos
          (fun x => IsLMS text.toList x ∧ (1 < r.1 → AfterLMS text.toList x))
          (fun x => (x : Int)) (· = 0) := by
  unfold placeLms
  refine Returns.bind (bucketMax_returns h htm ht) ?_
  rintro tmp₁ ⟨ht₁, hb₁⟩
  have hnone : ∀ x, ¬(IsLMS text.toList x ∧ text.size < x) := by
    rintro x ⟨hx, hlt⟩
    have := hx.lt_length
    simp at this
    omega
  refine Returns.bind (lmsScan_returns h (Placing F text textMax haveFreq) ⟨sa, tmp₁, 0, -1⟩
    ⟨⟨hsa, fun x hx => absurd hx (hnone x), fun p hp _ => hzero p hp⟩, ht₁, ?_, ?_, ?_⟩ ?_ ?_) ?_
  · simp only [hnone, false_and]
    simpa [cnt_zero_of_none] using hb₁
  · exact (cnt_zero_of_none fun x _ => hnone x).symm
  · exact fun hlt => absurd hlt (lt_irrefl _)
  · exact fun i s _ hp hl => hp.skip hl
  · exact fun i s hin hp hl => hp.place h hin hl
  · intro st hp
    have hcount : st.numLms = lmsCount text.toList := by
      rw [hp.numLms, lmsCount, lmsRank, Array.length_toList]
      exact cnt_congr fun x _ => and_iff_left_of_imp fun hx => hx.1
    have hall : ∀ x, IsLMS text.toList x ∧ 0 < x ↔ IsLMS text.toList x :=
      fun x => and_iff_left_of_imp fun hx => hx.1
    by_cases hmany : 1 < st.numLms
    · obtain ⟨x, hx, hx0, hleast, hlast⟩ := hp.lastB (by omega)
      have hmem : (lmsByIndex text.toList).Mem x := .inr hx
      have hpos : (lmsByIndex text.toList).pos x < text.size := by
        have := (lmsByIndex text.toList).pos_lt hmem
        simpa [lmsByIndex] using this
      have hn63 := h.size_lt_two_pow
      refine Returns.of_eq (a := (st.numLms,
        st.sa.setIfInBounds ((lmsByIndex text.toList).pos x) 0, st.tmp)) ?_
        ⟨hcount, hp.tables, ?_⟩
      · simp only [gt_iff_lt, hmany, if_true, hlast]
        rw [usize_natCast (by omega), put_eq_some _ (by rw [hp.sa.size]; exact hpos)]
        rfl
      · have hstore := hp.sa.store (w := fun y => if y = x then 0 else (y : Int)) 0 hpos
          (fun y hy heq => (lmsByIndex text.toList).pos_inj (.inr hy.1) hmem heq) (by simp)
          (fun y _ hne => by simp [hne]) fun y => Iff.rfl
        refine hstore.forget (fun y hy => ?_) (fun y hy hnot => ?_) fun _ hv => hv
        · obtain ⟨z, hz, hzy⟩ := hy.2 hmany
          have hxz := hleast z hz hz.1
          have hyx : y ≠ x := by omega
          exact ⟨.inl ⟨hy.1, hy.1.1⟩, by simp [hyx], rfl⟩
        · have hyx : y = x := by
            by_contra hne
            rcases hy with ⟨hyl, hy0⟩ | hy
            · have := hleast y hyl hy0
              exact hnot ⟨hyl, fun _ => ⟨x, hx, by omega⟩⟩
            · exact hne hy
          simp [hyx]
    · refine Returns.of_eq (a := (st.numLms, st.sa, st.tmp)) (by simp [hmany])
        ⟨hcount, hp.tables, hp.sa.congr (fun x => ?_) fun _ _ => rfl⟩
      rw [hall x]
      exact and_iff_left_of_imp fun _ hlt => absurd hlt hmany

end

end DirtybirdMiner.Sais.LmsScan
