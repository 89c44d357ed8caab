import DirtybirdMiner.Lib.Ranking
import DirtybirdMiner.Sais.Codes

/-!
`assignId` and `map`: the low half of `sa` gets one name for every LMS
position, equal for equal LMS-substrings, and the names are then listed in text
order at the high end.
-/

namespace DirtybirdMiner.Sais.Names

open DirtybirdMiner.Lib
open DirtybirdMiner.Lib.Checked
open DirtybirdMiner.Lib.Count
open DirtybirdMiner.Lib.Packing
open DirtybirdMiner.Lib.Ranking
open DirtybirdMiner.Lib.SuffixOrder
open DirtybirdMiner.Lib.LmsKeys
open DirtybirdMiner.Sais.Model
open DirtybirdMiner.Sais.Buckets
open DirtybirdMiner.Sais.LmsScan
open DirtybirdMiner.Sais.Codes

section

/-- The key that names are given by. -/
noncomputable def lmsKey (text : List Int) (x : Nat) : List (Int ×ₗ Bool) := (own text x).1

noncomputable def lmsName (text : List Int) (x : Nat) : Nat :=
  name text.length (lmsPos text) (IsLMS text) (lmsKey text) x

noncomputable def lmsNames (text : List Int) : Nat :=
  leaders text.length (lmsPos text) (IsLMS text) (lmsKey text)

def LmsLeader (text : List Int) (x : Nat) : Prop :=
  Leader (lmsPos text) (IsLMS text) (lmsKey text) x

theorem sorted_lms (text : List Int) :
    Sorted text.length (lmsPos text) (IsLMS text) (lmsKey text) where
  lt := (spread_lms text).lt
  pos_lt := (spread_lms text).topPos_lt
  inj := (spread_lms text).topPos_inj
  mono := by
    intro x y hx hy hlt
    rw [lmsPos_lt_iff hx hy, Prod.Lex.toLex_lt_toLex] at hlt
    rcases hlt with hl | ⟨he, -⟩
    · exact hl.le
    · exact he.le

theorem lmsName_lt_iff {text : List Int} {x y : Nat} (hx : IsLMS text x) (hy : IsLMS text y) :
    lmsName text x < lmsName text y ↔ (own text x).1 < (own text y).1 :=
  (sorted_lms text).name_lt_iff hx hy

theorem lmsNames_le (text : List Int) : lmsNames text ≤ lmsCount text := leaders_le

theorem lmsName_le (text : List Int) (x : Nat) : lmsName text x ≤ lmsNames text := name_le x

theorem lmsCount_le_size (text : Array Int) : lmsCount text.toList ≤ text.size := by
  unfold lmsCount lmsRank
  have := cnt_le text.toList.length (IsLMS text.toList)
  rwa [Array.length_toList] at this

/-- The entries of the high end, by their index in it. -/
theorem exists_lmsPos {text : Array Int} {k : Nat} (hk : k < lmsCount text.toList) :
    ∃ x, IsLMS text.toList x ∧
      lmsPos text.toList x = text.size - lmsCount text.toList + k := by
  have hle := lmsCount_le_size text
  have hcount : cnt text.size (IsLMS text.toList) = lmsCount text.toList := by
    rw [lmsCount, lmsRank, Array.length_toList]
  obtain ⟨x, hx, hpos⟩ := (spread_lms text.toList).exists_topPos
    (q := text.size - lmsCount text.toList + k)
    (by rw [Array.length_toList, hcount]; omega) (by rw [Array.length_toList]; omega)
  exact ⟨x, hx, hpos⟩

end

section Assign

variable {F : Family} {text : Array Int} {textMax : Nat}

theorem slice_eq {start count : Nat} (h : start + count ≤ text.size) :
    ∃ a, slice text start count = some a ∧ a.size = count ∧
      ∀ k, k < count → cell a k = cell text (start + k) := by
  refine ⟨text.extract start (start + count), by rw [slice, if_pos h], ?_, fun k hk => ?_⟩
  · rw [Array.size_extract]
    omega
  · simp only [cell, Array.getElem?_extract]
    rw [if_pos (by omega)]

/-- `isNew` compares the LMS-substrings. -/
theorem isNew_eq (h : Input F text textMax) {x y : Nat} (hx : IsLMS text.toList x)
    (hy : IsLMS text.toList y) (hne : x ≠ y) {st : AssignState} (hpos : st.lastPos = y)
    (hlen : st.lastLen = lmsCode F text y) :
    Returns (isNew F text (lmsCode F text x) x st) fun b =>
      (b = true ↔ lmsKey text.toList x ≠ lmsKey text.toList y) := by
  have hiff := own_fst_eq_iff_rawCode h hx hy hne
  have hcodes := lmsCode_eq_iff h hx hy
  have hxn := lms_lt_size hx
  have hyn := lms_lt_size hy
  have hn63 := h.size_lt_two_pow
  unfold isNew lmsKey
  rw [hlen]
  by_cases hcode : lmsCode F text x = lmsCode F text y
  · have hraw := hcodes.mp hcode
    rw [if_neg (not_not.mpr hcode), unsigned_lmsCode h hx, Nat.mod_eq_of_lt (size_lt_pow h)]
    by_cases hge : text.size ≤ rawCode F text x
    · rw [if_pos hge]
      refine Returns.pure ?_
      simp only [Bool.false_eq_true, false_iff, not_not]
      exact hiff.mpr ⟨hraw, fun hlt => absurd hlt (not_lt.mpr hge)⟩
    · have hlt : rawCode F text x < text.size := not_le.mp hge
      have hcast : lmsCode F text x = ((rawCode F text x : Nat) : Int) :=
        h.cast_eq (by omega) (by omega)
      have hfits : ∀ {z}, IsLMS text.toList z → rawCode F text z < text.size →
          z + rawCode F text z ≤ text.size := by
        intro z hz hzlt
        by_cases hend : (own text.toList z).2 < text.size
        · have hbounds := own_bounds hz hend
          rw [rawCode_plain hend ((rawCode_lt_size_iff hz hend).mp hzlt)]
          omega
        · have hzn := lms_lt_size hz
          rw [rawCode_final hend]
          omega
      obtain ⟨a, ha, hasize, hacell⟩ := slice_eq (hfits hx hlt)
      obtain ⟨b, hb, hbsize, hbcell⟩ := slice_eq (hfits hy (hraw ▸ hlt))
      rw [if_neg hge, hpos, hcast, usize_natCast (by omega), usize_natCast (by omega),
        usize_natCast (by omega), ha, hraw, hb]
      refine Returns.pure ?_
      rw [decide_eq_true_iff, not_iff_not, hiff]
      constructor
      · rintro rfl
        refine ⟨hraw, fun _ k hk => ?_⟩
        rw [← hacell k hk, hbcell k (by omega)]
      · rintro ⟨-, hch⟩
        refine array_ext_cell (by rw [hasize, hbsize, hraw]) fun k hk => ?_
        rw [hacell k (by omega), hbcell k (by omega)]
        exact hch hlt k (by omega)
  · rw [if_pos hcode]
    refine Returns.pure ?_
    simp only [true_iff]
    exact fun heq => hcode (hcodes.mpr (hiff.mp heq).1)

open Classical in
/-- What the low half holds for an LMS position when the entries below `q` have
been named. -/
noncomputable def entry (F : Family) (text : Array Int) (q x : Nat) : Int :=
  if lmsPos text.toList x < q then (lmsName text.toList x : Int) else lmsCode F text x

/-- The state of `assignId` when the entries below `q` have been named. -/
structure Naming (F : Family) (text : Array Int) (q : Nat) (st : AssignState) : Prop where
  sa : Halves text st.sa (entry F text q)
  id : st.id = cnt text.size fun z => LmsLeader text.toList z ∧ lmsPos text.toList z < q
  last : (q = text.size - lmsCount text.toList ∧ st.lastLen = -1) ∨
    ∃ y, IsLMS text.toList y ∧ lmsPos text.toList y < q ∧ st.lastPos = y ∧
      st.lastLen = lmsCode F text y ∧
      ∀ z, IsLMS text.toList z → lmsPos text.toList z < q →
        lmsKey text.toList z ≤ lmsKey text.toList y

theorem le_lmsPos {x : Nat} (hx : IsLMS text.toList x) :
    text.size - lmsCount text.toList ≤ lmsPos text.toList x := by
  have := (spread_lms text.toList).le_topPos hx
  change text.toList.length - lmsCount text.toList ≤ lmsPos text.toList x at this
  rwa [Array.length_toList] at this

/-- The next entry is new just when it leads its group. -/
theorem Naming.isNew_leader (h : Input F text textMax) {x : Nat} (hx : IsLMS text.toList x)
    {st : AssignState} (hst : Naming F text (lmsPos text.toList x) st) :
    Returns (isNew F text (lmsCode F text x) x st) fun b =>
      (b = true ↔ LmsLeader text.toList x) := by
  rcases hst.last with ⟨hq, hlen⟩ | ⟨y, hy, hlt, hpos, hlen, hmax⟩
  · refine Returns.of_eq (a := true) ?_ ?_
    · rw [isNew, if_pos]
      rw [hlen]
      exact lmsCode_ne h hx
    · refine iff_of_true rfl ⟨hx, fun y hy hlt => ?_⟩
      have := le_lmsPos hy
      omega
  · have hne : x ≠ y := by
      rintro rfl
      exact lt_irrefl _ hlt
    refine (isNew_eq h hx hy hne hpos hlen).mono fun b hb => ?_
    rw [hb]
    exact ((sorted_lms text.toList).leader_iff hx hy hlt hmax).symm

theorem lmsName_eq (text : Array Int) (x : Nat) :
    lmsName text.toList x = cnt text.size fun z =>
      LmsLeader text.toList z ∧ lmsPos text.toList z < lmsPos text.toList x + 1 := by
  rw [lmsName, name, Array.length_toList]
  exact cnt_congr fun z _ => and_congr_right fun _ => Nat.lt_succ_iff.symm

theorem Naming.step (h : Input F text textMax) {x : Nat} (hx : IsLMS text.toList x)
    {st : AssignState} (hst : Naming F text (lmsPos text.toList x) st) :
    Returns (do
      let new ← isNew F text (lmsCode F text x) x st
      let st := if new then
        { st with id := st.id + 1, lastPos := (x : Int), lastLen := lmsCode F text x } else st
      let sa ← put st.sa (x / 2) (F.cast st.id)
      some { st with sa := sa }) (Naming F text (lmsPos text.toList x + 1)) := by
  have hsorted := sorted_lms text.toList
  have hcounts : lmsName text.toList x ≤ text.size := by
    rw [lmsName_eq]
    exact cnt_le _ _
  have hhalf := half_lt hx
  rw [Array.length_toList] at hhalf
  have hput : x / 2 < st.sa.size := by rw [hst.sa.size]; omega
  have hsa : Halves text (st.sa.setIfInBounds (x / 2) (lmsName text.toList x : Int))
      (entry F text (lmsPos text.toList x + 1)) := by
    refine hst.sa.set hx (if_pos (Nat.lt_succ_self _)) fun y hy hne => ?_
    have hpos : lmsPos text.toList y ≠ lmsPos text.toList x := fun he => hne (hsorted.inj hy hx he)
    unfold entry
    congr 1
    simp only [eq_iff_iff]
    omega
  refine Returns.bind (hst.isNew_leader h hx) fun b hb => ?_
  cases b with
  | true =>
      have hl := hb.mp rfl
      have hid : st.id + 1 = lmsName text.toList x := by
        rw [hst.id, lmsName_eq]
        have := hsorted.count_succ_leader hl
        rw [Array.length_toList] at this
        exact this.symm
      refine Returns.of_eq (a := ⟨st.sa.setIfInBounds (x / 2) (lmsName text.toList x : Int),
        st.id + 1, lmsCode F text x, x⟩) ?_ ⟨hsa, ?_, .inr ?_⟩
      · simp only [if_true, Option.bind_eq_bind]
        rw [hid, h.cast_eq (by omega) (by omega), put_eq_some _ hput, Option.bind_some]
      · exact hid.trans (lmsName_eq text x)
      · refine ⟨x, hx, Nat.lt_succ_self _, rfl, rfl, fun z hz hlt => ?_⟩
        rcases (Nat.le_of_lt_succ hlt).lt_or_eq with hl' | he
        · exact hsorted.mono hz hx hl'
        · rw [hsorted.inj hz hx he]
  | false =>
      have hl : ¬LmsLeader text.toList x := fun hl => absurd (hb.mpr hl) (by simp)
      have hid : st.id = lmsName text.toList x := by
        rw [hst.id, lmsName_eq]
        have := hsorted.count_succ_other hx hl
        rw [Array.length_toList] at this
        exact this.symm
      refine Returns.of_eq (a := { st with
        sa := st.sa.setIfInBounds (x / 2) (lmsName text.toList x : Int) }) ?_ ⟨hsa, ?_, .inr ?_⟩
      · simp only [Bool.false_eq_true, if_false, Option.bind_eq_bind]
        rw [hid, h.cast_eq (by omega) (by omega), put_eq_some _ hput, Option.bind_some]
      · exact hid.trans (lmsName_eq text x)
      · rcases hst.last with ⟨hq, -⟩ | ⟨y, hy, hlt, hpos, hlen, hmax⟩
        · -- The first entry is a leader.
          refine absurd ⟨hx, fun y hy hlt => ?_⟩ hl
          have := le_lmsPos hy
          omega
        · have hkey : lmsKey text.toList x = lmsKey text.toList y := by
            by_contra hne
            exact hl ((hsorted.leader_iff hx hy hlt hmax).mpr hne)
          refine ⟨y, hy, by omega, hpos, hlen, fun z hz hzlt => ?_⟩
          rcases (Nat.le_of_lt_succ hzlt).lt_or_eq with hl' | he
          · exact hmax z hz hl'
          · rw [hsorted.inj hz hx he, hkey]

theorem assignId_returns (h : Input F text textMax) {sa : Array Int}
    (hsa : Halves text sa (lmsCode F text)) :
    Returns (assignId F text sa (lmsCount text.toList)) fun r =>
      r.1 = lmsNames text.toList ∧
        Halves text r.2 fun x => (lmsName text.toList x : Int) := by
  have hle := lmsCount_le_size text
  have hn63 := h.size_lt_two_pow
  unfold assignId
  rw [hsa.size, require_eq_some hle]
  simp only [Option.bind_eq_bind, Option.bind_some]
  refine Returns.bind (forUp_returns
    (fun k => Naming F text (text.size - lmsCount text.toList + k))
    0 (lmsCount text.toList) ⟨sa, 0, -1, 0⟩ ?_ fun k st _ hk hst => ?_) ?_
  · refine ⟨hsa.congr fun x hx => if_neg ?_, ?_, .inl ⟨rfl, rfl⟩⟩
    · have := le_lmsPos hx
      omega
    · refine (cnt_zero_of_none fun z _ hz => ?_).symm
      have := le_lmsPos hz.1.1
      omega
  · rw [Nat.zero_add] at hk
    obtain ⟨x, hx, hpos⟩ := exists_lmsPos hk
    have hxn := lms_lt_size hx
    rw [← hpos] at hst
    rw [← Nat.add_assoc, ← hpos]
    have hposlt : lmsPos text.toList x < st.sa.size := by rw [hst.sa.size, hpos]; omega
    have hdiv : (x : Int).tdiv 2 = ((x / 2 : Nat) : Int) := rfl
    unfold assignIdStep
    rw [← hpos, getElem?_eq_cell hposlt, hst.sa.high x hx]
    simp only [Option.bind_eq_bind, Option.bind_some]
    rw [hdiv, usize_natCast (by omega), getElem?_eq_cell (by rw [hst.sa.size]; omega),
      hst.sa.low x hx, Option.bind_some, entry, if_neg (lt_irrefl _)]
    exact hst.step h hx
  · intro st hst
    rw [Nat.zero_add] at hst
    have hall : ∀ x, IsLMS text.toList x →
        lmsPos text.toList x < text.size - lmsCount text.toList + lmsCount text.toList := by
      intro x hx
      have := (spread_lms text.toList).topPos_lt hx
      rw [Array.length_toList] at this
      unfold lmsPos
      rw [Array.length_toList]
      omega
    refine Returns.pure ⟨?_, hst.sa.congr fun x hx => (if_pos (hall x hx)).symm⟩
    rw [hst.id, lmsNames, leaders, Array.length_toList]
    exact cnt_congr fun z _ => and_iff_left_of_imp fun hz => hall z hz.1

end Assign

section Map

variable {F : Family} {text : Array Int} {textMax : Nat}

theorem spread_half (text : List Int) : Spread text.length (fun x => x / 2) (IsLMS text) where
  lt h := by have := h.lt_length; omega
  pos_lt h := by have := h.lt_length; omega
  inj h h' := isLMS_half_inj h h'

/-- Where `map` puts the name of an LMS position: in text order. -/
theorem topPos_half {x : Nat} (hx : IsLMS text.toList x) :
    topPos text.size (fun x => x / 2) (IsLMS text.toList) x =
      text.size - lmsCount text.toList + lmsRank text.toList x := by
  have hxn := lms_lt_size hx
  have hle := lmsCount_le_size text
  have hlater : (cnt text.size fun y => IsLMS text.toList y ∧ x / 2 < y / 2) =
      cnt text.size fun y => IsLMS text.toList y ∧ x < y := by
    refine cnt_congr fun y _ => and_congr_right fun hy => ?_
    have hne : x / 2 = y / 2 → x = y := isLMS_half_inj hx hy
    omega
  have hsplit : lmsCount text.toList = (cnt text.size fun y => IsLMS text.toList y ∧ y < x + 1) +
      cnt text.size fun y => IsLMS text.toList y ∧ x < y := by
    rw [lmsCount, lmsRank, Array.length_toList, ← cnt_or (by omega)]
    refine cnt_congr fun y _ => ?_
    constructor
    · intro hy
      rcases Nat.lt_or_ge x y with hl | hg
      · exact .inr ⟨hy, hl⟩
      · exact .inl ⟨hy, by omega⟩
    · exact fun hy => hy.elim And.left And.left
  rw [cnt_below (by omega), cnt_succ_of x hx] at hsplit
  unfold topPos
  rw [hlater]
  unfold lmsRank
  omega

/-- The state of `map` when the indices from `i` on have been read. -/
structure Mapping (text : Array Int) (i : Nat) (st : Array Int × Nat) : Prop where
  size : st.1.size = text.size
  low : ∀ x, IsLMS text.toList x → cell st.1 (x / 2) = lmsName text.toList x
  rest : ∀ p, p < text.size - lmsCount text.toList →
    (∀ x, IsLMS text.toList x → x / 2 ≠ p) → cell st.1 p = 0
  high : ∀ x, IsLMS text.toList x → i ≤ x / 2 →
    cell st.1 (text.size - lmsCount text.toList + lmsRank text.toList x) =
      lmsName text.toList x - 1
  w : st.2 = top text.size (fun x => x / 2) (IsLMS text.toList) i

theorem mapStep_returns (h : Input F text textMax) {i : Nat}
    (hi : i < text.size - lmsCount text.toList) {st : Array Int × Nat}
    (hst : Mapping text (i + 1) st) : Returns (mapStep F i st) (Mapping text i) := by
  have hspread := spread_half text.toList
  rw [Array.length_toList] at hspread
  have hread : st.1[i]? = some (cell st.1 i) := getElem?_eq_cell (by rw [hst.size]; omega)
  unfold mapStep
  simp only [Option.bind_eq_bind]
  rw [hread, Option.bind_some]
  by_cases hex : ∃ x, IsLMS text.toList x ∧ x / 2 = i
  · obtain ⟨x, hx, rfl⟩ := hex
    have hname : 0 < lmsName text.toList x := (sorted_lms text.toList).name_pos hx
    have hle : lmsName text.toList x ≤ text.size := by
      rw [lmsName_eq]
      exact cnt_le _ _
    have htop := hspread.top_succ hx
    have hself := hspread.top_self hx
    have hlt := hspread.topPos_lt hx
    rw [topPos_half hx] at htop hself hlt
    have hw : st.2 - 1 = text.size - lmsCount text.toList + lmsRank text.toList x := by
      rw [hst.w, htop]
      omega
    have hwlt : st.2 - 1 < st.1.size := by rw [hst.size]; omega
    rw [hst.low x hx, if_pos (by omega), require_eq_some (by rw [hst.w, htop]; omega),
      Option.bind_some, h.checked_eq (by omega) (by omega), Option.bind_some,
      put_eq_some _ hwlt, Option.bind_some]
    refine Returns.pure ⟨by simpa using hst.size, fun y hy => ?_, fun p hp hnone => ?_,
      fun y hy hle => ?_, ?_⟩
    · have hhalf := half_lt hy
      rw [Array.length_toList] at hhalf
      rw [cell_set_ne _ (by omega), hst.low y hy]
    · rw [cell_set_ne _ (by omega), hst.rest p hp hnone]
    · rw [cell_set _ hwlt]
      split
      · rename_i heq
        have hrank : lmsRank text.toList y = lmsRank text.toList x := by omega
        rw [lmsRank_inj hy hx hrank]
      · rename_i hne
        refine hst.high y hy ?_
        rcases hle.lt_or_eq with hl | he
        · exact hl
        · rw [← isLMS_half_inj hx hy he] at hne
          exact absurd hw.symm hne
    · rw [hself, hw]
  · have hnone : ∀ x, IsLMS text.toList x → x / 2 ≠ i := fun x hx heq => hex ⟨x, hx, heq⟩
    rw [hst.rest i hi hnone, if_neg (lt_irrefl _)]
    refine Returns.pure ⟨hst.size, hst.low, hst.rest, fun x hx hle => hst.high x hx ?_, ?_⟩
    · have := hnone x hx
      omega
    · rw [hst.w]
      exact (Spread.top_skip hnone).symm

theorem map_returns (h : Input F text textMax) (hn : 0 < text.size) {sa : Array Int}
    (hsa : Halves text sa fun x => (lmsName text.toList x : Int)) :
    Returns (map F sa) fun sa' => sa'.size = text.size ∧ ∀ x, IsLMS text.toList x →
      cell sa' (text.size - lmsCount text.toList + lmsRank text.toList x) =
        lmsName text.toList x - 1 := by
  have htwo : 2 * lmsCount text.toList < text.toList.length :=
    two_mul_lmsCount_lt (by rwa [Array.length_toList])
  rw [Array.length_toList] at htwo
  unfold map
  rw [hsa.size]
  refine Returns.bind (forDown_returns (Mapping text) (text.size / 2 + 1) (sa, text.size)
    ⟨hsa.size, hsa.low, hsa.rest, fun x hx hle => ?_, ?_⟩
    fun i st hi hst => mapStep_returns h (by omega) hst) ?_
  · have := lms_lt_size hx
    omega
  · rw [top, cnt_zero_of_none fun y _ hy => ?_]
    · rfl
    · have := lms_lt_size hy.1
      omega
  · rintro ⟨sa', w⟩ hst
    exact Returns.pure ⟨hst.size, fun x hx => hst.high x hx (Nat.zero_le _)⟩

end Map

end DirtybirdMiner.Sais.Names
