import DirtybirdMiner.Sais.Expand
import DirtybirdMiner.Sais.Names

/-!
SA-IS sorts all suffixes.  The four inducing passes are instances of the
layouts of `LmsLayouts`; the recursion is covered by induction on its depth.
-/

namespace DirtybirdMiner.Sais.Correct

open DirtybirdMiner.Lib
open DirtybirdMiner.Lib.Checked
open DirtybirdMiner.Lib.Count
open DirtybirdMiner.Lib.BucketLayout
open DirtybirdMiner.Lib.InducedSort
open DirtybirdMiner.Lib.Packing
open DirtybirdMiner.Lib.Ranking
open DirtybirdMiner.Lib.SuffixOrder
open DirtybirdMiner.Lib.LmsKeys
open DirtybirdMiner.Lib.LmsLayouts
open DirtybirdMiner.Sais.Model
open DirtybirdMiner.Sais.Buckets
open DirtybirdMiner.Sais.LmsScan
open DirtybirdMiner.Sais.InduceL
open DirtybirdMiner.Sais.InduceS
open DirtybirdMiner.Sais.InduceSubS
open DirtybirdMiner.Sais.Codes
open DirtybirdMiner.Sais.Names
open DirtybirdMiner.Sais.Expand

section Layouts

variable {text : Array Int} {x : Nat}

theorem fits_suffixL (text : Array Int) : Fits text (suffixL text.toList) :=
  ⟨Array.length_toList, ch_toList_eq text⟩

theorem fits_suffixS (text : Array Int) : Fits text (suffixS text.toList) :=
  ⟨Array.length_toList, ch_toList_eq text⟩

theorem fits_substringL (text : Array Int) : Fits text (substringL text.toList) :=
  ⟨Array.length_toList, ch_toList_eq text⟩

theorem fits_substringS (text : Array Int) : Fits text (substringS text.toList) :=
  ⟨Array.length_toList, ch_toList_eq text⟩

/-- The type of the position before an S-type position. -/
theorem isS_pred_iff {text : List Int} (hS : IsS text x) (h0 : 0 < x) :
    IsS text (x - 1) ↔ ch text (x - 1) ≤ ch text x := by
  obtain ⟨z, rfl⟩ : ∃ z, x = z + 1 := ⟨x - 1, by omega⟩
  have hlen := isS_lt_length hS
  rw [Nat.add_sub_cancel, isS_iff (by omega), le_iff_lt_or_eq]
  exact or_congr_right (and_iff_left hS)

/-- The type of the position before an L-type position. -/
theorem isS_pred_iff_of_not {text : List Int} (hx : x < text.length) (hL : ¬IsS text x)
    (h0 : 0 < x) : IsS text (x - 1) ↔ ch text (x - 1) < ch text x := by
  obtain ⟨z, rfl⟩ : ∃ z, x = z + 1 := ⟨x - 1, by omega⟩
  rw [Nat.add_sub_cancel, isS_iff hx]
  exact or_iff_left fun h => hL h.2

theorem head_substringS_iff {text : List Int} : Head (substringS text) x ↔ IsLMS text x := by
  constructor
  · rintro ⟨⟨hS, y, hy, hyx⟩, hnot⟩
    have hy0 := hy.1
    refine ⟨by omega, hS, fun hpred => hnot ⟨by omega, hpred, ?_⟩⟩
    rcases Nat.lt_or_ge y x with hl | hg
    · exact ⟨y, hy, by omega⟩
    · obtain rfl : y = x := by omega
      exact absurd hpred hy.2.2
  · exact fun h => ⟨substringS_back h, fun hl => h.2.2 hl.2.1⟩

theorem readable_substringS (text : List Int) : Readable (substringS text) := by
  rintro x ⟨hS, hafter⟩
  have h0 : 0 < x := by
    obtain ⟨y, hy, hyx⟩ := hafter
    have := hy.1
    omega
  refine ⟨h0, head_substringS_iff.trans ?_⟩
  change IsLMS text x ↔ ch text x < ch text (x - 1)
  rw [← not_le, ← isS_pred_iff hS h0]
  exact ⟨fun h => h.2.2, fun h => ⟨h0, hS, h⟩⟩

theorem linked_substringS_iff (hx : (substringS text.toList).front x) :
    Linked (substringS text.toList) x ↔ Marked text x := by
  refine and_congr_right fun h0 => ?_
  change IsS text.toList (x - 1) ∧ AfterLMS text.toList (x - 1 + 1) ↔ _
  rw [Nat.sub_add_cancel h0, and_iff_left hx.2.2, isS_pred_iff_of_not hx.1 hx.2.1 h0,
    ch_toList, ch_toList]

theorem flagged_suffixS (hx : (suffixS text.toList).front x) :
    flagged (suffixS text.toList) text.size x = signed text x := by
  have hpos := (fits_suffixS text).pos_lt_size (.inl hx)
  unfold flagged signed
  congr 1
  simp only [eq_iff_iff, hpos, and_true]
  refine and_congr_right fun h0 => ?_
  change IsS text.toList (x - 1) ↔ _
  rw [isS_pred_iff_of_not hx.1 hx.2 h0, ch_toList, ch_toList]

theorem headPos_substringS (text : List Int) : headPos (substringS text) = lmsPos text := by
  have hhead : Head (substringS text) = IsLMS text :=
    funext fun x => propext head_substringS_iff
  funext x
  rw [headPos, hhead]
  rfl

theorem suffixS_mem (hx : x < text.size) : (suffixS text.toList).Mem x := by
  by_cases hS : IsS text.toList x
  · exact .inr hS
  · exact .inl ⟨by simpa using hx, hS⟩

end Layouts

section Passes

variable {F : Family} {text : Array Int} {textMax : Nat} {haveFreq : Bool}

/-- Every suffix stands at its rank. -/
def Ranked (text sa : Array Int) : Prop :=
  sa.size = text.size ∧ ∀ x, x < text.size → cell sa ((suffixS text.toList).pos x) = x

/-- What `induceL` leaves is what `induceS` starts from. -/
theorem induceS_start {sa : Array Int}
    (hsa : Scatter sa text.size (suffixL text.toList).pos (suffixL text.toList).Mem
      (kept text (suffixL text.toList)) (· = 0)) :
    Scatter sa text.size (suffixS text.toList).pos (suffixS text.toList).front
      (flagged (suffixS text.toList) text.size) (0 ≤ ·) := by
  refine hsa.forget (fun x hx => ⟨.inl hx, ?_, (suffixL_pos_eq text.toList hx).symm⟩)
    (fun x hx hnot => ?_) fun v hv => hv.ge
  · have hkept : kept text (suffixL text.toList) x = signed text x := kept_front hx
    rw [hkept]
    exact flagged_suffixS hx
  · rw [kept_back (hx.resolve_left hnot)]
    omega

/-- What `induceSubL` leaves is what `induceSubS` starts from. -/
theorem induceSubS_start {sa : Array Int}
    (hsa : Scatter sa text.size (substringL text.toList).pos
      (fun x => (substringL text.toList).front x ∧ Marked text x) (fun x => (x : Int)) (· = 0)) :
    Scatter sa text.size (substringS text.toList).pos
      (fun x => (substringS text.toList).front x ∧ Linked (substringS text.toList) x)
      (fun x => (x : Int)) (· = 0) := by
  refine hsa.forget (fun x hx => ⟨⟨hx.1, (linked_substringS_iff hx.1).mp hx.2⟩, rfl, ?_⟩)
    (fun x hx hnot => ?_) fun _ hv => hv
  · exact (substringL_pos_eq text.toList hx.1).symm
  · exact absurd ⟨hx.1, (linked_substringS_iff hx.1).mpr hx.2⟩ hnot

end Passes

section Recursion

/-- The solver sorts the suffixes of every text shorter than the bound. -/
def Solves (F : Family) (solve : Solver) (bound : Nat) : Prop :=
  ∀ text textMax sa tmp, Input F text textMax → text.size < bound → sa.size = text.size →
    (∀ p, p < text.size → cell sa p = 0) → textMax ≤ tmp.size →
      (F.byteText = true → 2 * textMax ≤ tmp.size) →
        Returns (solve text textMax sa tmp) fun r => Ranked text r.1

variable {F G : Family} {text : Array Int} {textMax : Nat} {haveFreq : Bool} {solve : Solver}

/-- The family of the recursion: the same width, over integers. -/
def Below (G F : Family) : Prop := G.bits = F.bits ∧ G.byteText = false

theorem cell_extract {a : Array Int} {lo hi k : Nat} (hhi : hi ≤ a.size) (hk : lo + k < hi) :
    cell (a.extract lo hi) k = cell a (lo + k) := by
  simp only [cell, Array.getElem?_extract]
  rw [if_pos (by omega)]

theorem cell_append_left {a b : Array Int} {k : Nat} (hk : k < a.size) :
    cell (a ++ b) k = cell a k := by
  simp only [cell]
  rw [Array.getElem?_append_left hk]

/-- The names of the LMS positions in text order. -/
def IsNames (text names : Array Int) : Prop :=
  names.size = lmsCount text.toList ∧
    ∀ x, IsLMS text.toList x →
      cell names (lmsRank text.toList x) = (lmsName text.toList x : Int) - 1

theorem IsNames.input (h : Input F text textMax) (hbelow : Below G F) {names : Array Int}
    (hnames : IsNames text names) : Input G names (lmsNames text.toList) := by
  have hle := lmsCount_le_size text
  have hn63 := h.size_lt_two_pow
  have hmax := lmsNames_le text.toList
  have hcell : ∀ k, k < names.size → 0 ≤ cell names k ∧ cell names k < lmsNames text.toList := by
    intro k hk
    rw [hnames.1] at hk
    obtain ⟨x, hx, rfl⟩ := exists_lmsRank hk
    have hpos : 0 < lmsName text.toList x := (sorted_lms text.toList).name_pos hx
    have hname := lmsName_le text.toList x
    rw [hnames.2 x hx]
    omega
  refine ⟨?_, ?_, ?_, by omega, fun hb => ?_, fun k hk => (hcell k hk).1,
    fun k hk => (hcell k hk).2⟩
  · rw [hbelow.1]
    exact h.bits_pos
  · rw [hbelow.1]
    exact h.bits_le
  · have := h.size_lt
    rw [hbelow.1, hnames.1]
    omega
  · rw [hbelow.2] at hb
    exact absurd hb (by simp)

/-- The reduced problem orders the LMS-suffixes. -/
theorem IsNames.order {names : Array Int} (hnames : IsNames text names) :
    LmsOrder text fun x => (suffixS names.toList).pos (lmsRank text.toList x) where
  order_lt := by
    intro x hx
    have hlt := lmsRank_lt_count hx
    have := (fits_suffixS names).pos_lt_size (suffixS_mem (by rw [hnames.1]; exact hlt))
    rwa [hnames.1] at this
  order_lt_iff := by
    intro x y hx hy
    have hmem : ∀ {z}, IsLMS text.toList z →
        (suffixS names.toList).Mem (lmsRank text.toList z) :=
      fun hz => suffixS_mem (by rw [hnames.1]; exact lmsRank_lt_count hz)
    rw [(suffixS names.toList).pos_lt_pos_iff (hmem hx) (hmem hy)]
    refine drop_lt_drop_iff_names (f := fun x => (lmsName text.toList x : Int) - 1) ?_ ?_ ?_ hx hy
    · rw [Array.length_toList, hnames.1]
    · intro z hz
      rw [ch_toList, hnames.2 z hz]
    · intro z w hz hw
      rw [← lmsName_lt_iff hz hw]
      omega

theorem recurse_returns (h : Input F text textMax) (hn : 0 < text.size) (hbelow : Below G F)
    (hsolve : Solves G solve text.size) {sa tmp : Array Int} (hsize : sa.size = text.size)
    (hnames : ∀ x, IsLMS text.toList x →
      cell sa (text.size - lmsCount text.toList + lmsRank text.toList x) =
        (lmsName text.toList x : Int) - 1) :
    Returns (recurse solve sa tmp (lmsCount text.toList) (lmsNames text.toList)) fun sa' =>
      sa'.size = text.size ∧ ∃ names, IsNames text names ∧ ∀ x, IsLMS text.toList x →
        cell sa' ((suffixS names.toList).pos (lmsRank text.toList x)) =
          lmsRank text.toList x := by
  have htwo := two_mul_lmsCount_lt (show 0 < text.toList.length by rwa [Array.length_toList])
  rw [Array.length_toList] at htwo
  have hle := lmsNames_le text.toList
  have hisnames : IsNames text (sa.extract (text.size - lmsCount text.toList) text.size) := by
    refine ⟨by rw [Array.size_extract]; omega, fun x hx => ?_⟩
    have hrank := lmsRank_lt_count hx
    rw [cell_extract (by omega) (by omega), hnames x hx]
  unfold recurse
  simp only [hsize, Option.bind_eq_bind]
  rw [require_eq_some (by omega), Option.bind_some]
  have hclear := clear_returns 0 (lmsCount text.toList) sa (by omega)
  simp only [Nat.zero_add] at hclear
  refine Returns.bind hclear ?_
  rintro sa₁ ⟨hsize₁, hzero, -⟩
  refine Returns.bind (hsolve _ _ _ _ (hisnames.input h hbelow) ?_ ?_ ?_ ?_ ?_) ?_
  · rw [hisnames.1]
    omega
  · rw [hisnames.1, Array.size_extract]
    omega
  · intro p hp
    rw [hisnames.1] at hp
    rw [cell_extract (by omega) (by omega), Nat.zero_add, hzero p hp]
  · rw [Array.size_replicate]
    split_ifs <;> omega
  · intro hb
    rw [hbelow.2] at hb
    exact absurd hb (by simp)
  · rintro ⟨dst, tmp'⟩ ⟨hdst, hcell⟩
    have hdst' : dst.size = lmsCount text.toList := hdst.trans hisnames.1
    refine Returns.pure ⟨?_, _, hisnames, fun x hx => ?_⟩
    · rw [Array.size_append, Array.size_extract, hdst']
      omega
    · rw [cell_append_left]
      · refine hcell _ ?_
        rw [hisnames.1]
        exact lmsRank_lt_count hx
      · rw [hdst']
        exact hisnames.order.order_lt hx

/-- With one name for each LMS position the substrings are already in order. -/
theorem sorted_of_distinct (hdistinct : lmsCount text.toList ≤ lmsNames text.toList)
    {sa : Array Int} {val : Nat → Int} (hsa : Halves text sa val) :
    SortedLms text (sa.extract (text.size - lmsCount text.toList) text.size ++
        sa.extract (lmsCount text.toList) text.size)
      fun x => lmsPos text.toList x - (text.size - lmsCount text.toList) := by
  have hle := lmsCount_le_size text
  have hsize := hsa.size
  have hsorted := sorted_lms text.toList
  have hpos : ∀ {x}, IsLMS text.toList x → text.size - lmsCount text.toList ≤
      lmsPos text.toList x ∧ lmsPos text.toList x < text.size := by
    intro x hx
    have := hsorted.pos_lt hx
    rw [Array.length_toList] at this
    exact ⟨le_lmsPos hx, this⟩
  refine ⟨⟨fun {x} hx => ?_, fun {x y} hx hy => ?_⟩, ?_, fun {x} hx => ?_⟩
  · have := hpos hx
    omega
  · have hxp := hpos hx
    have hyp := hpos hy
    have hkey : ∀ {x y}, IsLMS text.toList x → IsLMS text.toList y →
        lmsPos text.toList x < lmsPos text.toList y →
          text.toList.drop x < text.toList.drop y := by
      intro x y hx hy hlt
      have hxl := hx.lt_length
      have hyl := hy.lt_length
      rcases (hsorted.mono hx hy hlt).lt_or_eq with hl | he
      · exact drop_lt_of_own_lt (by omega) (by omega) hl
      · rw [hsorted.key_inj hdistinct hx hy he] at hlt
        exact absurd hlt (lt_irrefl _)
    constructor
    · exact fun hlt => hkey hx hy (by omega)
    · intro hlt
      rcases lt_trichotomy (lmsPos text.toList x) (lmsPos text.toList y) with hl | he | hg
      · omega
      · rw [hsorted.inj hx hy he] at hlt
        exact absurd hlt (lt_irrefl _)
      · exact absurd hlt (lt_asymm (hkey hy hx hg))
  · rw [Array.size_append, Array.size_extract, Array.size_extract]
    omega
  · have := hpos hx
    rw [cell_append_left (by rw [Array.size_extract]; omega), cell_extract (by omega) (by omega),
      show text.size - lmsCount text.toList +
        (lmsPos text.toList x - (text.size - lmsCount text.toList)) = lmsPos text.toList x by omega,
      hsa.high x hx]

theorem sortLms_returns (h : Input F text textMax) (htm : 0 < textMax) (hn : 2 ≤ text.size)
    (hbelow : Below G F) (hsolve : Solves G solve text.size)
    (hlms : ∃ y, IsLMS text.toList y) {sa tmp : Array Int}
    (hsa : Scatter sa text.size (lmsByIndex text.toList).pos
      (fun x => IsLMS text.toList x ∧ AfterLMS text.toList x) (fun x => (x : Int)) (· = 0))
    (ht : Tables F text textMax haveFreq tmp) :
    Returns (sortLms F solve text sa textMax tmp haveFreq (lmsCount text.toList)) fun r =>
      Tables F text textMax haveFreq r.2 ∧ ∃ order, SortedLms text r.1 order := by
  have hstart : Scatter sa text.size (substringL text.toList).pos (substringL text.toList).back
      (fun x => (x : Int)) (· = 0) :=
    hsa.forget (fun x hx => ⟨hx, rfl, substringL_pos_back text.toList hx⟩)
      (fun x hx hnot => absurd hx hnot) fun _ hv => hv
  have hpos : ∀ x, (substringL text.toList).front x → 0 < x := by
    rintro x ⟨-, -, y, hy, hyx⟩
    omega
  unfold sortLms
  refine Returns.bind (induceSubL_returns h htm (fits_substringL text)
    (substringL_pass text.toList hlms) hpos hn hstart ht) ?_
  rintro ⟨sa₁, tmp₁⟩ ⟨ht₁, hsa₁⟩
  refine Returns.bind (induceSubS_returns h htm (fits_substringS text)
    (substringS_pass text.toList) (readable_substringS text.toList)
    (induceSubS_start hsa₁) ht₁) ?_
  rintro ⟨sa₂, tmp₂⟩ ⟨ht₂, hsa₂⟩
  rw [headPos_substringS] at hsa₂
  have hhalves := Halves.of_scatter
    (hsa₂.congr (fun x => head_substringS_iff.symm) fun _ _ => rfl)
  refine Returns.bind (length_returns h hhalves) ?_
  intro sa₃ hsa₃
  refine Returns.bind (assignId_returns h hsa₃) ?_
  rintro ⟨maxId, sa₄⟩ ⟨rfl, hsa₄⟩
  by_cases hdup : lmsNames text.toList < lmsCount text.toList
  · simp only [if_pos hdup]
    refine Returns.bind (map_returns h (by omega) hsa₄) ?_
    rintro sa₅ ⟨hsize₅, hsa₅⟩
    refine Returns.bind (recurse_returns h (by omega) hbelow hsolve hsize₅ hsa₅) ?_
    rintro sa₆ ⟨hsize₆, names, hnames, hsa₆⟩
    refine Returns.bind (unmap_returns h (by omega) hsize₆ hnames.order hsa₆) ?_
    intro sa₇ hsa₇
    exact Returns.pure ⟨ht₂, _, hsa₇⟩
  · have hle := lmsCount_le_size text
    have hsize₄ : sa₄.size = text.size := hsa₄.size
    simp only [if_neg hdup]
    rw [hsize₄, require_eq_some hle]
    exact Returns.pure ⟨ht₂, _, sorted_of_distinct (not_lt.mp hdup) hsa₄⟩

/-- A text with at most one LMS position needs no sorting of them. -/
theorem scatter_of_few (hfew : lmsCount text.toList ≤ 1) {sa : Array Int}
    (hsa : Scatter sa text.size (lmsByIndex text.toList).pos (IsLMS text.toList)
      (fun x => (x : Int)) (· = 0)) :
    Scatter sa text.size (suffixL text.toList).pos (suffixL text.toList).back
      (fun x => (x : Int)) (· = 0) := by
  have hunique : ∀ x y, IsLMS text.toList x → IsLMS text.toList y → y = x := by
    intro x y hx hy
    have hxr := lmsRank_lt_count hx
    have hyr := lmsRank_lt_count hy
    exact lmsRank_inj hy hx (by omega)
  exact hsa.forget
    (fun x hx => ⟨hx, rfl, suffixL_pos_of_unique text.toList hx fun y hy => hunique x y hx hy⟩)
    (fun x hx hnot => absurd hx hnot) fun _ hv => hv

theorem placeSortedLms_returns (h : Input F text textMax) (htm : 0 < textMax)
    (hn : 2 ≤ text.size) (hbelow : Below G F) (hsolve : Solves G solve text.size)
    {sa tmp : Array Int} (hsize : sa.size = text.size)
    (hzero : ∀ p, p < text.size → cell sa p = 0) (ht : Tables F text textMax haveFreq tmp) :
    Returns (placeSortedLms F solve text sa textMax tmp haveFreq) fun r =>
      Tables F text textMax haveFreq r.2 ∧
        Scatter r.1 text.size (suffixL text.toList).pos (suffixL text.toList).back
          (fun x => (x : Int)) (· = 0) := by
  unfold placeSortedLms
  refine Returns.bind (placeLms_returns h htm hsize hzero ht) ?_
  rintro ⟨numLms, sa₁, tmp₁⟩ ⟨rfl, ht₁, hsa₁⟩
  by_cases hfew : lmsCount text.toList ≤ 1
  · simp only [if_pos hfew]
    refine Returns.pure ⟨ht₁, scatter_of_few hfew (hsa₁.congr (fun x => ?_) fun _ _ => rfl)⟩
    exact ⟨fun hx => ⟨hx, fun hgt => absurd hgt (not_lt.mpr hfew)⟩, And.left⟩
  · simp only [if_neg hfew]
    obtain ⟨y, hy, -⟩ := exists_lmsRank (show 0 < lmsCount text.toList by omega)
    refine Returns.bind (sortLms_returns h htm hn hbelow hsolve ⟨y, hy⟩
      (hsa₁.congr (fun x => ?_) fun _ _ => rfl) ht₁) ?_
    · exact and_congr_right fun _ => ⟨fun hx _ => hx, fun hx => hx (not_le.mp hfew)⟩
    · rintro ⟨sa₂, tmp₂⟩ ⟨ht₂, order, hsorted⟩
      exact expand_returns h htm hsorted (by omega) ht₂

theorem markFreq_returns (text : Array Int) (htm : 0 < textMax) {tmp : Array Int} (htmp : textMax ≤ tmp.size)
    (hbyte : F.byteText = true → 2 * textMax ≤ tmp.size) :
    Returns (markFreq tmp (decide (tmp.size ≥ 2 * textMax)))
      (Tables F text textMax (decide (tmp.size ≥ 2 * textMax))) := by
  unfold markFreq
  by_cases hfreq : tmp.size ≥ 2 * textMax
  · rw [decide_eq_true hfreq, if_pos rfl, put_eq_some _ (by omega)]
    refine Returns.pure ⟨by simpa using htmp, fun _ => by simpa using hfreq, fun _ => rfl,
      fun _ => .inl ?_⟩
    rw [cell_set_self _ (by omega)]
    omega
  · rw [decide_eq_false hfreq]
    refine Returns.pure ⟨htmp, fun hf => absurd hf (by simp), fun hb => ?_,
      fun hf => absurd hf (by simp)⟩
    exact absurd (hbyte hb) hfreq

theorem saisBody_solves (hbelow : Below G F) {bound : Nat}
    (hsolve : ∀ n, n < bound → Solves G solve n) : Solves F (saisBody F solve) bound := by
  intro text textMax sa tmp h hlt hsize hzero htmp hbyte
  unfold saisBody
  rw [require_eq_some ⟨hsize, htmp⟩]
  simp only [Option.bind_eq_bind, Option.bind_some]
  by_cases h0 : text.size = 0
  · rw [if_pos h0]
    exact Returns.pure ⟨hsize, fun x hx => by omega⟩
  rw [if_neg h0]
  have htm : 0 < textMax := by
    have := h.ch_nonneg 0 (by omega)
    have := h.ch_lt 0 (by omega)
    omega
  by_cases h1 : text.size = 1
  · rw [if_pos h1, put_eq_some _ (by omega), Option.bind_some]
    refine Returns.pure ⟨by simpa using hsize, fun x hx => ?_⟩
    have hpos := (fits_suffixS text).pos_lt_size (suffixS_mem hx)
    rw [show (suffixS text.toList).pos x = 0 by omega, cell_set_self _ (by omega),
      show x = 0 by omega]
    rfl
  rw [if_neg h1]
  refine Returns.bind (markFreq_returns text htm htmp hbyte) ?_
  intro tmp₁ ht₁
  refine Returns.bind (placeSortedLms_returns h htm (by omega) hbelow (hsolve _ hlt) hsize hzero
    ht₁) ?_
  rintro ⟨sa₂, tmp₂⟩ ⟨ht₂, hsa₂⟩
  refine Returns.bind (induceL_returns h htm (fits_suffixL text)
    (suffixL_pass text.toList (by rw [Array.length_toList]; omega)) (by omega) hsa₂ ht₂) ?_
  rintro ⟨sa₃, tmp₃⟩ ⟨ht₃, hsa₃⟩
  refine Returns.bind (induceS_returns h htm (fits_suffixS text) (suffixS_pass text.toList)
    (fun x hx h0 => isS_pred_iff hx h0) (induceS_start hsa₃) ht₃) ?_
  rintro ⟨sa₄, tmp₄⟩ ⟨ht₄, hsa₄⟩
  have hsize₄ : textMax ≤ tmp₄.size := ht₄.size
  simp only
  rw [put_eq_some _ (by omega)]
  exact Returns.pure ⟨hsa₄.size, fun x hx => hsa₄.active_cell x (suffixS_mem hx)⟩

theorem saisRec_solves (hbyte : F.byteText = false) (depth : Nat) :
    Solves F (saisRec F depth) depth := by
  induction depth with
  | zero => intro text textMax sa tmp _ hlt
            omega
  | succ depth ih =>
      refine saisBody_solves ⟨rfl, hbyte⟩ fun n hn => ?_
      exact fun text textMax sa tmp h hlt => ih text textMax sa tmp h (by omega)

end Recursion

section SuffixArray

/-- The entries of `sa` are the suffix array of the text. -/
def IsSuffixArrayOf {α : Type} [LinearOrder α] (text : List α) (sa : Array Int) : Prop :=
  ∃ order : List Nat, sa.toList = order.map (fun x : Nat => (x : Int)) ∧ IsSuffixArray text order

theorem Ranked.isSuffixArrayOf {text sa : Array Int} (h : Ranked text sa) :
    IsSuffixArrayOf text.toList sa := by
  obtain ⟨hsize, hcell⟩ := h
  have hfits := fits_suffixS text
  have hsurj : ∀ p, p < text.size → ∃ x, x < text.size ∧ (suffixS text.toList).pos x = p :=
    fun p hp => exists_preimage (fun x hx => hfits.pos_lt_size (suffixS_mem hx))
      (fun x y hx hy => (suffixS text.toList).pos_inj (suffixS_mem hx) (suffixS_mem hy)) hp
  refine ⟨(List.range text.size).map fun p => (cell sa p).toNat, ?_, ?_⟩
  · apply List.ext_getElem (by simp [hsize])
    intro p hp hp'
    rw [Array.length_toList, hsize] at hp
    obtain ⟨x, hx, rfl⟩ := hsurj p hp
    have hget : sa[(suffixS text.toList).pos x]? = some (x : Int) := by
      rw [getElem?_eq_cell (by omega), hcell x hx]
    simp only [Array.getElem_toList, List.getElem_map, List.getElem_range, hcell x hx,
      Int.toNat_natCast]
    exact (Array.getElem?_eq_some_iff.mp hget).2
  · have hlen : text.toList.length = text.size := Array.length_toList
    refine isSuffixArray_of_rank (r := (suffixS text.toList).pos) (by simp) (fun x y hx hy => ?_)
      (fun p hp => ?_) fun x hx => ?_
    · rw [hlen] at hx hy
      exact (suffixS text.toList).pos_lt_pos_iff (suffixS_mem hx) (suffixS_mem hy)
    · rw [hlen] at hp ⊢
      exact hsurj p hp
    · rw [hlen] at hx
      rw [List.getElem?_map, List.getElem?_range (hfits.pos_lt_size (suffixS_mem hx)),
        Option.map_some, hcell x hx, Int.toNat_natCast]

theorem IsSuffixArrayOf.unique {α : Type} [LinearOrder α] {text : List α} {sa sb : Array Int}
    (ha : IsSuffixArrayOf text sa) (hb : IsSuffixArrayOf text sb) : sa = sb := by
  obtain ⟨la, hla, ha⟩ := ha
  obtain ⟨lb, hlb, hb⟩ := hb
  apply Array.toList_inj.mp
  rw [hla, hlb, ha.unique hb]

/-- The bytes of a text as numbers. -/
def byteValues (text : Array UInt8) : List Nat := text.toList.map UInt8.toNat

theorem widen_toList (text : Array UInt8) :
    (widen text).toList = (byteValues text).map fun x : Nat => (x : Int) := by
  simp [widen, byteValues]

theorem input_widen {F : Family} {text : Array UInt8} (hbits : 0 < F.bits) (hle : F.bits ≤ 64)
    (hn : (text.size : Int) < 2 ^ (F.bits - 1)) : Input F (widen text) textMax8 := by
  have hcell : ∀ x, x < (widen text).size → 0 ≤ cell (widen text) x ∧ cell (widen text) x < 256 := by
    intro x hx
    have hx' : x < text.size := by simpa [widen] using hx
    have hval : cell (widen text) x = ((text[x]).toNat : Int) := by
      simp [cell, widen, hx']
    have := (text[x]).toNat_lt
    rw [hval]
    omega
  refine ⟨hbits, hle, by simpa [widen] using hn, by decide, fun _ => rfl,
    fun x hx => (hcell x hx).1, fun x hx => (hcell x hx).2⟩

theorem suffixArrayOf_returns {F G : Family} {solve : Solver} {text : Array UInt8}
    (hbits : 0 < F.bits) (hle : F.bits ≤ 64) (hbelow : Below G F)
    (hsolve : ∀ n, Solves G solve n) (hn : (text.size : Int) < 2 ^ (F.bits - 1)) :
    Returns (suffixArrayOf (saisBody F solve) text) (IsSuffixArrayOf (byteValues text)) := by
  have hsize : (widen text).size = text.size := by simp [widen]
  unfold suffixArrayOf
  refine Returns.bind (saisBody_solves hbelow (fun n _ => hsolve n) (widen text) textMax8 _ _
    (input_widen hbits hle hn) (Nat.lt_succ_self _) (by simp [hsize]) (fun p hp => ?_)
    (by simp [textMax8]) fun _ => by simp) ?_
  · rw [hsize] at hp
    simp [cell, hp]
  · rintro ⟨sa, tmp⟩ hranked
    obtain ⟨order, horder, hsorted⟩ := hranked.isSuffixArrayOf
    rw [widen_toList] at hsorted
    exact Returns.pure ⟨order, horder, (isSuffixArray_map_iff fun a b => Nat.cast_lt).mp hsorted⟩

/-- The text's own length is depth enough. -/
theorem saisRec_size_solves {F : Family} (hbyte : F.byteText = false) (n : Nat) :
    Solves F (fun text => saisRec F (text.size + 1) text) n :=
  fun text textMax sa tmp h _ =>
    saisRec_solves hbyte (text.size + 1) text textMax sa tmp h (Nat.lt_succ_self _)

theorem suffixArray32_returns {text : Array UInt8} (hn : text.size < 2 ^ 31) :
    Returns (suffixArray32 text) (IsSuffixArrayOf (byteValues text)) :=
  suffixArrayOf_returns (G := family_32) (by decide) (by decide) ⟨rfl, rfl⟩
    (saisRec_size_solves rfl) (by simp only [family_8_32]; omega)

theorem suffixArray16_returns {text : Array UInt8} (hn : text.size < 2 ^ 15) :
    Returns (suffixArray16 text) (IsSuffixArrayOf (byteValues text)) :=
  suffixArrayOf_returns (G := family_16) (by decide) (by decide) ⟨rfl, rfl⟩
    (saisRec_size_solves rfl) (by simp only [family_8_16]; omega)

theorem suffixArray16Checked_returns {text : Array UInt8} (hn : text.size < 2 ^ 15) :
    Returns (suffixArray16Checked text) (IsSuffixArrayOf (byteValues text)) :=
  suffixArrayOf_returns (G := { family_16 with wrapTotals := false }) (by decide) (by decide)
    ⟨rfl, rfl⟩ (saisRec_size_solves rfl) (by simp only [family_8_16]; omega)

/-- `sais32` returns the suffix array of every byte string, and so does every
level of its recursion for every text over its integer alphabet. -/
theorem sais32_sorts_suffixes :
    (∀ text : Array UInt8, text.size < 2 ^ 31 →
      ∃ sa, suffixArray32 text = some sa ∧ IsSuffixArrayOf (byteValues text) sa) ∧
    ∀ (text : Array Int) (textMax : Nat) (sa tmp : Array Int), text.size < 2 ^ 31 →
      (∀ x, x < text.size → 0 ≤ cell text x ∧ cell text x < textMax) →
      sa.size = text.size → (∀ p, p < sa.size → cell sa p = 0) →
      textMax ≤ tmp.size → tmp.size < 2 ^ 63 →
        ∃ sa' tmp', sais_32 text textMax sa tmp = some (sa', tmp') ∧
          IsSuffixArrayOf text.toList sa' := by
  refine ⟨fun text hn => suffixArray32_returns hn, ?_⟩
  intro text textMax sa tmp hn hch hsize hzero htmp htmp63
  have hinput : Input family_32 text textMax :=
    ⟨by decide, by decide, by simp only [family_32]; omega, by omega,
      fun hb => absurd hb (by decide), fun x hx => (hch x hx).1, fun x hx => (hch x hx).2⟩
  obtain ⟨⟨sa', tmp'⟩, hrun, hranked⟩ := saisRec_size_solves rfl (text.size + 1) text textMax sa
    tmp hinput (Nat.lt_succ_self _) hsize (fun p hp => hzero p (by omega)) htmp
    fun hb => absurd hb (by decide)
  exact ⟨sa', tmp', hrun, hranked.isSuffixArrayOf⟩

theorem sais32_sorts_suffixes_small :
    (∃ sa, suffixArray32 #[98, 97, 110, 97, 110, 97] = some sa ∧
      IsSuffixArrayOf (byteValues #[98, 97, 110, 97, 110, 97]) sa) ∧
    ∃ sa tmp, sais_32 #[1, 0, 1] 2 #[0, 0, 0] #[0, 0] = some (sa, tmp) ∧
      IsSuffixArrayOf ([1, 0, 1] : List Int) sa :=
  ⟨sais32_sorts_suffixes.1 _ (by decide), sais32_sorts_suffixes.2 #[1, 0, 1] 2 #[0, 0, 0] #[0, 0]
    (by decide) (by decide) (by decide) (by decide) (by decide) (by decide)⟩

/-- `sais16` returns the suffix array of every byte string of at most 32767
bytes, the same as `sais32`, and its bucket totals never wrap. -/
theorem sais16_sorts_suffixes (text : Array UInt8) (hn : text.size ≤ 32767) :
    ∃ sa, suffixArray16 text = some sa ∧ IsSuffixArrayOf (byteValues text) sa ∧
      suffixArray16Checked text = some sa ∧ suffixArray32 text = some sa := by
  obtain ⟨sa, hrun, hsa⟩ := suffixArray16_returns (show text.size < 2 ^ 15 by omega)
  obtain ⟨sb, hrun', hsb⟩ := suffixArray16Checked_returns (show text.size < 2 ^ 15 by omega)
  obtain ⟨sc, hrun'', hsc⟩ := suffixArray32_returns (show text.size < 2 ^ 31 by omega)
  refine ⟨sa, hrun, hsa, ?_, ?_⟩
  · rw [hrun', hsb.unique hsa]
  · rw [hrun'', hsc.unique hsa]

theorem sais16_sorts_suffixes_small :
    ∃ sa, suffixArray16 #[98, 97, 110, 97, 110, 97] = some sa ∧
      IsSuffixArrayOf (byteValues #[98, 97, 110, 97, 110, 97]) sa ∧
      suffixArray16Checked #[98, 97, 110, 97, 110, 97] = some sa ∧
      suffixArray32 #[98, 97, 110, 97, 110, 97] = some sa :=
  sais16_sorts_suffixes _ (by decide)

end SuffixArray

end DirtybirdMiner.Sais.Correct
