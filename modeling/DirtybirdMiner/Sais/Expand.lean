import DirtybirdMiner.Sais.InduceL

/-!
`unmap` and `expand`: from the order of the LMS-suffixes to their places at the
bucket ends.  Both passes write `sa` in place while they still read its low
part.
-/

namespace DirtybirdMiner.Sais.Expand

open DirtybirdMiner.Lib
open DirtybirdMiner.Lib.Checked
open DirtybirdMiner.Lib.Count
open DirtybirdMiner.Lib.BucketLayout
open DirtybirdMiner.Lib.SuffixOrder
open DirtybirdMiner.Lib.LmsKeys
open DirtybirdMiner.Lib.LmsLayouts
open DirtybirdMiner.Sais.Model
open DirtybirdMiner.Sais.Buckets
open DirtybirdMiner.Sais.LmsScan
open DirtybirdMiner.Sais.InduceL

/-- The index of every LMS position in the order of the LMS-suffixes. -/
structure LmsOrder (text : Array Int) (order : Nat → Nat) : Prop where
  order_lt : ∀ {x}, IsLMS text.toList x → order x < lmsCount text.toList
  order_lt_iff : ∀ {x y}, IsLMS text.toList x → IsLMS text.toList y →
    (order x < order y ↔ text.toList.drop x < text.toList.drop y)

/-- The LMS positions in the order of their suffixes at the low end of `sa`. -/
structure SortedLms (text sa : Array Int) (order : Nat → Nat) : Prop
    extends LmsOrder text order where
  size : sa.size = text.size
  cell_order : ∀ {x}, IsLMS text.toList x → cell sa (order x) = x

section

variable {F : Family} {text sa : Array Int} {textMax : Nat} {haveFreq : Bool}
  {order : Nat → Nat}

theorem lms_bounds {x : Nat} (h : IsLMS text.toList x) : x + 1 < text.size := by
  simpa using h.lt_length

theorem suffixL_pos_lt {x : Nat} (h : IsLMS text.toList x) :
    (suffixL text.toList).pos x < text.size :=
  ((suffixL text.toList).pos_lt (.inr h)).trans_eq Array.length_toList

namespace LmsOrder

theorem order_inj (h : LmsOrder text order) {x y : Nat} (hx : IsLMS text.toList x)
    (hy : IsLMS text.toList y) (heq : order x = order y) : x = y := by
  rcases lt_trichotomy (text.toList.drop x) (text.toList.drop y) with hl | he | hg
  · exact absurd heq ((h.order_lt_iff hx hy).mpr hl).ne
  · have := hx.lt_length
    have := hy.lt_length
    exact drop_injective (by omega) (by omega) he
  · exact absurd heq ((h.order_lt_iff hy hx).mpr hg).ne'

theorem exists_order (h : LmsOrder text order) {k : Nat} (hk : k < lmsCount text.toList) :
    ∃ x, IsLMS text.toList x ∧ order x = k := by
  obtain ⟨x, -, hx, hord⟩ := exists_preimage_of_cnt (n := text.toList.length)
    (p := IsLMS text.toList) (f := order) (fun _ _ hx => ⟨Nat.zero_le _, h.order_lt hx⟩)
    (fun _ _ => h.order_inj) (Nat.sub_le _ _) (Nat.zero_le k) hk
  exact ⟨x, hx, hord⟩

theorem pos_lt_iff (h : LmsOrder text order) {x y : Nat} (hx : IsLMS text.toList x)
    (hy : IsLMS text.toList y) :
    (suffixL text.toList).pos x < (suffixL text.toList).pos y ↔ order x < order y := by
  rw [(suffixL text.toList).pos_lt_pos_iff (.inr hx) (.inr hy), h.order_lt_iff hx hy]
  rfl

/-- An LMS-suffix never moves down. -/
theorem order_le_pos (h : LmsOrder text order) {x : Nat} (hx : IsLMS text.toList x) :
    order x ≤ (suffixL text.toList).pos x := by
  induction hm : order x generalizing x with
  | zero => omega
  | succ k ih =>
      have hlt := h.order_lt hx
      obtain ⟨y, hy, hyk⟩ := h.exists_order (show k < lmsCount text.toList by omega)
      have hle := ih hy hyk
      have hpos := (h.pos_lt_iff hy hx).mpr (by omega)
      omega

end LmsOrder

/-- The state of the first loop of `unmap`: the LMS positions after `i` are listed
in text order at the high end. -/
structure Listing (text sa : Array Int) (i : Nat) (st : Array Int × Nat) : Prop where
  size : st.1.size = text.size
  low : ∀ p, p < text.size - lmsCount text.toList → cell st.1 p = cell sa p
  high : ∀ x, IsLMS text.toList x → i < x →
    cell st.1 (text.size - lmsCount text.toList + lmsRank text.toList x) = x
  w : st.2 = lmsRank text.toList (i + 1)

theorem unmapFound_returns (h : Input F text textMax) {i : Nat} {st : Array Int × Nat}
    (hst : Listing text sa (i + 1) st) (hl : IsLMS text.toList (i + 1)) :
    Returns (unmapFound F (text.size - lmsCount text.toList) (i + 1) st)
      (Listing text sa i) := by
  have hi := lms_bounds hl
  have hrank := lmsRank_lt_count hl
  have hw : st.2 = lmsRank text.toList (i + 1) + 1 := by rw [hst.w, lmsRank_succ hl]
  have hlt : text.size - lmsCount text.toList + lmsRank text.toList (i + 1) < st.1.size := by
    have := two_mul_lmsCount_lt (show 0 < text.toList.length by rw [Array.length_toList]; omega)
    rw [Array.length_toList] at this
    rw [hst.size]
    omega
  unfold unmapFound
  simp only [Option.bind_eq_bind]
  rw [hw, require_eq_some (by omega), Option.bind_some, Nat.add_sub_cancel, put_eq_some _ hlt,
    Option.bind_some, h.cast_eq (by omega) (by omega)]
  refine Returns.pure ⟨by simpa using hst.size, fun p hp => ?_, fun x hx hlt' => ?_, rfl⟩
  · rw [cell_set_ne _ (by omega), hst.low p hp]
  · rw [cell_set _ hlt]
    split
    · rename_i heq
      rw [lmsRank_inj hx hl (by omega)]
    · rename_i hne
      refine hst.high x hx ?_
      have : x ≠ i + 1 := by
        rintro rfl
        exact hne rfl
      omega

/-- The state of the second loop of `unmap`: ranks replaced by positions below
index `i`. -/
structure Unmapping (text : Array Int) (order : Nat → Nat) (i : Nat) (sa : Array Int) : Prop where
  size : sa.size = text.size
  high : ∀ x, IsLMS text.toList x →
    cell sa (text.size - lmsCount text.toList + lmsRank text.toList x) = x
  done : ∀ x, IsLMS text.toList x → order x < i → cell sa (order x) = x
  todo : ∀ x, IsLMS text.toList x → i ≤ order x → cell sa (order x) = lmsRank text.toList x

theorem unmapStep_returns (h : Input F text textMax) (hord : LmsOrder text order) {i x : Nat}
    (hx : IsLMS text.toList x) (hi : order x = i)
    (hlt : order x < text.size - lmsCount text.toList) {sa : Array Int}
    (hst : Unmapping text order i sa) :
    Returns (unmapStep (text.size - lmsCount text.toList) i sa)
      (Unmapping text order (i + 1)) := by
  subst hi
  have hn63 := h.size_lt_two_pow
  have hrank := lmsRank_lt_count hx
  have hxsa : order x < sa.size := by rw [hst.size]; omega
  unfold unmapStep
  rw [getElem?_eq_cell hxsa, hst.todo x hx le_rfl]
  simp only [Option.bind_eq_bind, Option.bind_some]
  rw [usize_natCast (by omega), getElem?_eq_cell (by rw [hst.size]; omega), hst.high x hx,
    Option.bind_some, put_eq_some _ hxsa]
  refine Returns.pure ⟨by simpa using hst.size, fun y hy => ?_, fun y hy hle => ?_,
    fun y hy hle => ?_⟩
  · rw [cell_set_ne _ (by omega), hst.high y hy]
  · rw [cell_set _ hxsa]
    split
    · rename_i heq
      rw [hord.order_inj hy hx heq]
    · exact hst.done y hy (by omega)
  · rw [cell_set_ne _ (by omega), hst.todo y hy (by omega)]

theorem unmap_returns (h : Input F text textMax) (hn : 0 < text.size)
    (hsize : sa.size = text.size)
    (hord : LmsOrder text order)
    (hcell : ∀ x, IsLMS text.toList x → cell sa (order x) = lmsRank text.toList x) :
    Returns (unmap F text sa (lmsCount text.toList)) fun sa' => SortedLms text sa' order := by
  have htwo := two_mul_lmsCount_lt (show 0 < text.toList.length by rwa [Array.length_toList])
  rw [Array.length_toList] at htwo
  unfold unmap
  rw [hsize, require_eq_some (by omega)]
  simp only [Option.bind_eq_bind, Option.bind_some]
  refine Returns.bind (lmsScan_returns h (Listing text sa) (sa, lmsCount text.toList)
    ⟨hsize, fun _ _ => rfl, fun x hx hgt => ?_, ?_⟩ (fun i st hi hst hl => ?_)
    fun i st hi hst hl => unmapFound_returns h hst hl) ?_
  · have := lms_bounds hx
    omega
  · rw [lmsRank_of_none (show text.size ≤ text.size + 1 by omega)]
    · rw [lmsCount, Array.length_toList]
    · intro z hz _ hl
      have := lms_bounds hl
      omega
  · refine ⟨hst.size, hst.low, fun x hx hlt => hst.high x hx ?_, ?_⟩
    · have : x ≠ i + 1 := by
        rintro rfl
        exact hl hx
      omega
    · rw [hst.w]
      refine lmsRank_of_none (by omega) fun z hz hz' => ?_
      obtain rfl : z = i + 1 := by omega
      exact hl
  · rintro ⟨sa₁, w⟩ hst
    have hstart : Unmapping text order 0 sa₁ := by
      refine ⟨hst.size, fun x hx => hst.high x hx hx.1, fun x hx hlt' => by omega, fun x hx _ => ?_⟩
      have hlt := hord.order_lt hx
      rw [hst.low _ (by omega), hcell x hx]
    refine (forUp_returns (Unmapping text order) 0 (lmsCount text.toList) sa₁ hstart
      fun k st _ hk hst => ?_).mono fun sa' hst' => ?_
    · obtain ⟨x, hx, hxk⟩ := hord.exists_order (show k < lmsCount text.toList by omega)
      exact unmapStep_returns h hord hx hxk (by omega) hst
    · rw [Nat.zero_add] at hst'
      exact ⟨hord, hst'.size, fun hx => hst'.done _ hx (hord.order_lt hx)⟩

/-- The table of the bucket bounds when the suffixes that satisfy `q` have been
placed. -/
noncomputable def boundsAfter (text : Array Int) (q : Nat → Prop) (c : Nat) : Nat :=
  maxIndex text c - cnt text.size fun z =>
    IsLMS text.toList z ∧ cell text z = c ∧ q z

/-- The next suffix goes to its place in the layout when all larger ones have
been placed. -/
theorem expandSlot_returns (h : Input F text textMax) {x : Nat} (hx : IsLMS text.toList x)
    {q : Nat → Prop} (hq : ∀ z, IsLMS text.toList z →
      (q z ↔ (suffixL text.toList).pos x < (suffixL text.toList).pos z)) {tmp : Array Int}
    (ht : Tables F text textMax haveFreq tmp)
    (hb : BucketTable F textMax haveFreq (boundsAfter text q) tmp) :
    Returns (expandSlot F text (F.boff textMax haveFreq) x tmp) fun r =>
      r.1 = (suffixL text.toList).pos x ∧ Tables F text textMax haveFreq r.2 ∧
        BucketTable F textMax haveFreq (boundsAfter text fun z =>
          (suffixL text.toList).pos x ≤ (suffixL text.toList).pos z) r.2 := by
  have hxn := lms_bounds hx
  have hn63 := h.size_lt_two_pow
  have hcode := h.code_lt (show x < text.size by omega)
  have hchar := h.cell_eq_code (show x < text.size by omega)
  have hafter : (cnt text.size fun z => IsLMS text.toList z ∧ cell text z = code text x ∧ q z) =
      (suffixL text.toList).after x := by
    rw [Layout.after]
    change _ = cnt text.toList.length _
    rw [Array.length_toList]
    refine cnt_congr fun z _ => and_congr_right fun hz => ?_
    change _ ↔ ch text.toList z = ch text.toList x ∧ text.toList.drop x < text.toList.drop z
    rw [hq z hz, (suffixL text.toList).pos_lt_pos_iff (.inr hx) (.inr hz), ch_toList, ch_toList,
      hchar]
    rfl
  have hpos : boundsAfter text q (code text x) = (suffixL text.toList).pos x + 1 := by
    have hlt := (suffixL text.toList).after_lt hx
    have hcounts := (suffixL text.toList).counts_le ((suffixL text.toList).ch x)
    have hstop : (suffixL text.toList).stop ((suffixL text.toList).ch x) =
        maxIndex text (code text x) := stop_eq_maxIndex h (by omega)
    rw [(suffixL text.toList).pos_back hx, boundsAfter, hafter, hstop]
    omega
  have hposlt := suffixL_pos_lt hx
  refine Returns.of_eq (a := (((suffixL text.toList).pos x : Int),
    tmp.setIfInBounds (F.boff textMax haveFreq + code text x) ((suffixL text.toList).pos x : Int)))
    ?_ ⟨rfl, ht.set (by omega) _, ?_⟩
  · unfold expandSlot
    rw [usize_natCast (by omega), getElem?_eq_cell (by omega)]
    simp only [Option.bind_eq_bind, Option.bind_some]
    rw [h.usize_cell (by omega), getElem?_eq_cell (ht.boff_add_lt hcode), hb _ hcode,
      Option.bind_some, hpos, show (((suffixL text.toList).pos x + 1 : Nat) : Int) - 1 =
        ((suffixL text.toList).pos x : Int) by omega,
      h.checked_eq (by omega) (by omega), Option.bind_some,
      put_eq_some _ (ht.boff_add_lt hcode), Option.bind_some]
  · have hsplit : ∀ z, IsLMS text.toList z →
        ((suffixL text.toList).pos x ≤ (suffixL text.toList).pos z ↔ q z ∨ z = x) := by
      intro z hz
      rw [hq z hz, le_iff_lt_or_eq]
      refine or_congr_right ⟨fun heq => ?_, fun heq => by rw [heq]⟩
      exact ((suffixL text.toList).pos_inj (.inr hx) (.inr hz) heq).symm
    refine bucketTable_set hb ht hcode ?_ fun d hd hne => ?_
    · have hinsert : (cnt text.size fun z => IsLMS text.toList z ∧ cell text z = code text x ∧
          (suffixL text.toList).pos x ≤ (suffixL text.toList).pos z) =
          (cnt text.size fun z => IsLMS text.toList z ∧ cell text z = code text x ∧ q z) + 1 := by
        refine cnt_insert (show x < text.size by omega) (fun hc => ?_) fun z _ => ?_
        · exact lt_irrefl _ ((hq x hx).mp hc.2.2)
        · constructor
          · rintro ⟨hz, hch, hle⟩
            exact ((hsplit z hz).mp hle).imp_left fun hqz => ⟨hz, hch, hqz⟩
          · rintro (⟨hz, hch, hqz⟩ | rfl)
            · exact ⟨hz, hch, (hsplit z hz).mpr (.inl hqz)⟩
            · exact ⟨hx, hchar, le_rfl⟩
      unfold boundsAfter at hpos ⊢
      rw [hinsert]
      omega
    · unfold boundsAfter
      congr 1
      refine cnt_congr fun z _ => and_congr_right fun hz => and_congr_right fun hch => ?_
      refine (hsplit z hz).trans (or_iff_left ?_)
      rintro rfl
      rw [hchar] at hch
      exact hne (by omega)

/-- The state of `expand` when the indices from `i` on have been written; `y` is
the suffix to be placed next, or the smallest one when all are placed. -/
structure Expanding (F : Family) (text : Array Int) (textMax : Nat) (haveFreq : Bool)
    (order : Nat → Nat) (i y : Nat) (st : ExpandState) : Prop where
  size : st.sa.size = text.size
  tables : Tables F text textMax haveFreq st.tmp
  bucket : BucketTable F textMax haveFreq (boundsAfter text fun z =>
    (suffixL text.toList).pos y ≤ (suffixL text.toList).pos z) st.tmp
  placed : ∀ x, IsLMS text.toList x → i ≤ (suffixL text.toList).pos x →
    cell st.sa ((suffixL text.toList).pos x) = x
  zero : ∀ p, i ≤ p → p < text.size →
    (∀ x, IsLMS text.toList x → (suffixL text.toList).pos x ≠ p) → cell st.sa p = 0
  unread : ∀ x, IsLMS text.toList x → order x < i → cell st.sa (order x) = x
  lms : IsLMS text.toList y
  x : st.x = order y
  saX : st.saX = y
  b : st.b = (suffixL text.toList).pos y
  pending : (suffixL text.toList).pos y < i ∨ order y = 0
  above : ∀ x, IsLMS text.toList x →
    (suffixL text.toList).pos y < (suffixL text.toList).pos x → i ≤ (suffixL text.toList).pos x

/-- Writing index `i`, whatever comes next. -/
theorem Expanding.write {i y : Nat} {st : ExpandState}
    (hst : Expanding F text textMax haveFreq order (i + 1) y st) (hi : i < text.size) {v : Int}
    (hplaced : ∀ x, IsLMS text.toList x → (suffixL text.toList).pos x = i → v = x)
    (hzero : (∀ x, IsLMS text.toList x → (suffixL text.toList).pos x ≠ i) → v = 0) :
    (∀ x, IsLMS text.toList x → i ≤ (suffixL text.toList).pos x →
      cell (st.sa.setIfInBounds i v) ((suffixL text.toList).pos x) = x) ∧
    (∀ p, i ≤ p → p < text.size →
      (∀ x, IsLMS text.toList x → (suffixL text.toList).pos x ≠ p) →
        cell (st.sa.setIfInBounds i v) p = 0) ∧
    ∀ x, IsLMS text.toList x → order x < i → cell (st.sa.setIfInBounds i v) (order x) = x := by
  have hisa : i < st.sa.size := by rw [hst.size]; exact hi
  refine ⟨fun x hx hle => ?_, fun p hle hp hnone => ?_, fun x hx hlt => ?_⟩
  · rw [cell_set _ hisa]
    split
    · rename_i heq
      exact hplaced x hx heq
    · exact hst.placed x hx (by omega)
  · rw [cell_set _ hisa]
    split
    · rename_i heq
      rw [heq] at hnone
      exact hzero hnone
    · exact hst.zero p (by omega) hp hnone
  · rw [cell_set_ne _ (by omega)]
    exact hst.unread x hx (by omega)

theorem expandStep_returns (h : Input F text textMax) (hsorted : SortedLms text sa order)
    {i y : Nat} (hi : i < text.size) {st : ExpandState}
    (hst : Expanding F text textMax haveFreq order (i + 1) y st) :
    Returns (expandStep F text (F.boff textMax haveFreq) i st) fun st' =>
      ∃ y, Expanding F text textMax haveFreq order i y st' := by
  have hisa : i < st.sa.size := by rw [hst.size]; exact hi
  have hcast : F.cast (i : Int) = i := h.cast_eq (by omega) (by omega)
  have hinj : ∀ {x}, IsLMS text.toList x →
      (suffixL text.toList).pos x = (suffixL text.toList).pos y → x = y :=
    fun hx heq => (suffixL text.toList).pos_inj (.inr hx) (.inr hst.lms) heq
  unfold expandStep
  rw [hcast, hst.b]
  by_cases hpos : (suffixL text.toList).pos y = i
  · rw [if_neg (by simp [hpos]), put_eq_some _ hisa, hst.saX]
    simp only [Option.bind_eq_bind, Option.bind_some]
    obtain ⟨hplaced, hzero, hunread⟩ := hst.write hi (v := (y : Int))
      (fun x hx heq => by rw [hinj hx (heq.trans hpos.symm)])
      (fun hnone => absurd hpos (hnone y hst.lms))
    rw [hst.x]
    by_cases h0 : 0 < order y
    · -- The next smaller suffix is read from the part that is still unwritten.
      have hlt := hsorted.order_lt hst.lms
      obtain ⟨z, hz, hzk⟩ := hsorted.exists_order (show order y - 1 < lmsCount text.toList by omega)
      have hle := hsorted.order_le_pos hst.lms
      have hzy : (suffixL text.toList).pos z < (suffixL text.toList).pos y :=
        (hsorted.pos_lt_iff hz hst.lms).mpr (by omega)
      have hnext : ∀ w, IsLMS text.toList w →
          ((suffixL text.toList).pos y ≤ (suffixL text.toList).pos w ↔
            (suffixL text.toList).pos z < (suffixL text.toList).pos w) := by
        intro w hw
        rw [hsorted.pos_lt_iff hz hw, ← not_lt, hsorted.pos_lt_iff hw hst.lms]
        omega
      rw [if_pos h0, ← hzk, getElem?_eq_cell (by simp only [Array.size_setIfInBounds]; omega),
        hunread z hz (by omega), Option.bind_some]
      refine Returns.bind (expandSlot_returns h hz hnext hst.tables hst.bucket) ?_
      rintro ⟨b, tmp⟩ ⟨rfl, ht, hb⟩
      refine Returns.pure ⟨z, by simpa using hst.size, ht, hb, hplaced, hzero, hunread, hz, rfl,
        rfl, rfl, .inl (by omega), fun x hx hlt => ?_⟩
      have := (hnext x hx).mpr hlt
      omega
    · rw [if_neg h0]
      refine Returns.pure ⟨y, by simpa using hst.size, hst.tables, hst.bucket, hplaced, hzero,
        hunread, hst.lms, rfl, rfl, rfl, .inr (by omega), fun x hx hlt => by omega⟩
  · rw [if_pos (by omega), put_eq_some _ hisa]
    have hnone : ∀ x, IsLMS text.toList x → (suffixL text.toList).pos x ≠ i := by
      intro x hx heq
      have habove := hst.above x hx
      have hbelow := hsorted.pos_lt_iff hx hst.lms
      have hne : (suffixL text.toList).pos x ≠ (suffixL text.toList).pos y :=
        fun he => hpos (by omega)
      rcases hst.pending with hlt | h0
      · omega
      · omega
    obtain ⟨hplaced, hzero, hunread⟩ := hst.write hi (v := 0)
      (fun x hx heq => absurd heq (hnone x hx)) fun _ => rfl
    refine Returns.pure ⟨y, by simpa using hst.size, hst.tables, hst.bucket, hplaced, hzero,
      hunread, hst.lms, hst.x, hst.saX, rfl, ?_, fun x hx hlt => ?_⟩
    · exact hst.pending.imp_left fun hlt => by omega
    · have := hst.above x hx hlt
      omega

/-- After `expand` the LMS-suffixes stand sorted at the ends of their buckets. -/
theorem expand_returns (h : Input F text textMax) (htm : 0 < textMax)
    (hsorted : SortedLms text sa order) (hpos : 0 < lmsCount text.toList) {tmp : Array Int}
    (ht : Tables F text textMax haveFreq tmp) :
    Returns (expand F text sa textMax tmp haveFreq (lmsCount text.toList)) fun r =>
      Tables F text textMax haveFreq r.2 ∧
        Scatter r.1 text.size (suffixL text.toList).pos (suffixL text.toList).back
          (fun x => (x : Int)) (· = 0) := by
  obtain ⟨y, hy, hyk⟩ :=
    hsorted.exists_order (show lmsCount text.toList - 1 < lmsCount text.toList by omega)
  have hle := hsorted.order_le_pos hy
  have hmax : ∀ z, IsLMS text.toList z →
      ¬(suffixL text.toList).pos y < (suffixL text.toList).pos z := by
    intro z hz hlt
    have := (hsorted.pos_lt_iff hy hz).mp hlt
    have := hsorted.order_lt hz
    omega
  have hylt := suffixL_pos_lt hy
  unfold expand
  refine Returns.bind (bucketMax_returns h htm ht) ?_
  rintro tmp₁ ⟨ht₁, hb₁⟩
  simp only [Option.bind_eq_bind]
  rw [require_eq_some hpos, Option.bind_some, ← hyk,
    getElem?_eq_cell (by rw [hsorted.size]; omega), hsorted.cell_order hy, Option.bind_some]
  refine Returns.bind (expandSlot_returns h hy (q := fun _ => False)
    (fun z hz => iff_of_false id (hmax z hz)) ht₁ ?_) ?_
  · intro c hc
    rw [hb₁ c hc, boundsAfter, cnt_zero_of_none fun z _ hz => hz.2.2, Nat.sub_zero]
  · rintro ⟨b, tmp₂⟩ ⟨rfl, ht₂, hb₂⟩
    rw [hsorted.size]
    refine Returns.bind (forDown_returns
      (fun i st => ∃ y, Expanding F text textMax haveFreq order i y st) text.size _
      ⟨y, hsorted.size, ht₂, hb₂, ?_, ?_, fun x hx _ => hsorted.cell_order hx, hy, rfl, rfl,
        rfl, .inl hylt, fun z hz hlt => absurd hlt (hmax z hz)⟩
      fun i st hi hst => expandStep_returns h hsorted hi hst.choose_spec) ?_
    · intro x hx hge
      have := suffixL_pos_lt hx
      omega
    · intro p hge hlt
      omega
    · rintro st ⟨y, hst⟩
      refine Returns.pure ⟨hst.tables, hst.size, fun x hx => hst.placed x hx (Nat.zero_le _),
        fun p hp hnone => hst.zero p (Nat.zero_le _) hp hnone⟩

end

end DirtybirdMiner.Sais.Expand
