import DirtybirdMiner.Lib.Doubling
import DirtybirdMiner.Lib.Sorting
import DirtybirdMiner.Lib.SuffixOrder

/-!
The reference construction of suffix arrays, `suffix_array` of `astrobwt/src/suffixarray.rs`, by
prefix doubling.
-/

namespace DirtybirdMiner.Sais.PrefixDoubling

open DirtybirdMiner.Lib.Checked
open DirtybirdMiner.Lib.Doubling
open DirtybirdMiner.Lib.Sorting
open DirtybirdMiner.Lib.SuffixOrder

section Model

structure State where
  sa : List Nat
  rank : Array Int
  tmp : Array Int

/-- The closure `key`. -/
def key (rank : Array Int) (n k i : Nat) : Option (Int × Int) := do
  let second ← if i + k < n then rank[i + k]? else some (-1)
  let first ← rank[i]?
  some (first, second)

/-- `Ord::cmp` of pairs. -/
def compareKeys (a b : Int × Int) : Ordering := (compare a.1 b.1).then (compare a.2 b.2)

/-- `sort_by`, a stable sort. -/
def sortByKey (rank : Array Int) (n k : Nat) (sa : List Nat) : Option (List Nat) :=
  insertionSort (fun a b => do
    let ka ← key rank n k a
    let kb ← key rank n k b
    some (compareKeys ka kb = .lt)) sa

/-- The new ranks, from the sorted positions. -/
def rerank (rank : Array Int) (n k : Nat) (sa : List Nat) (tmp : Array Int) :
    Option (Array Int) := do
  let first ← sa[0]?
  let tmp ← put tmp first 0
  forUp (fun w tmp => do
    let prev ← sa[w - 1]?
    let cur ← sa[w]?
    let kprev ← key rank n k prev
    let kcur ← key rank n k cur
    let inc : Int := if kprev = kcur then 0 else 1
    let last ← tmp[prev]?
    put tmp cur (last + inc)) 1 (n - 1) tmp

/-- One turn of the loop, up to the exit. -/
def round (n k : Nat) (s : State) : Option State := do
  let sa ← sortByKey s.rank n k s.sa
  let tmp ← rerank s.rank n k sa s.tmp
  some { sa, rank := tmp, tmp := s.rank }

/-- `rank[sa[n - 1]] == n - 1`. -/
def exits (n : Nat) (s : State) : Option Bool := do
  let last ← s.sa[n - 1]?
  let r ← s.rank[last]?
  some (r = n - 1)

/-- The loop, for at most some turns. -/
def rounds (n : Nat) : Nat → Nat → State → Option (List Nat)
  | 0, k, s => if k < n then none else some s.sa
  | fuel + 1, k, s =>
      if k < n then do
        let s ← round n k s
        let done ← exits n s
        if done then some s.sa else rounds n fuel (k <<< 1) s
      else some s.sa

def start (text : List UInt8) : State where
  sa := List.range text.length
  rank := (text.map fun b => (b.toNat : Int)).toArray
  tmp := Array.replicate text.length 0

def suffixArray (text : List UInt8) : Option (List Nat) :=
  let n := text.length
  if n = 0 then some []
  else if n = 1 then some [0]
  else rounds n n 1 (start text)

end Model

section Characters

variable {text : List UInt8}

/-- The character at a place, and the sentinel behind the text. -/
def charAt (text : List UInt8) (i : Nat) : Int :=
  match text[i]? with
  | some b => b.toNat
  | none => -1

theorem charAt_of_lt {i : Nat} (h : i < text.length) : charAt text i = text[i].toNat := by
  rw [charAt, List.getElem?_eq_getElem h]

theorem charAt_of_le {i : Nat} (h : text.length ≤ i) : charAt text i = -1 := by
  rw [charAt, List.getElem?_eq_none h]

theorem neg_one_lt_charAt {i : Nat} (h : i < text.length) : -1 < charAt text i := by
  rw [charAt_of_lt h]
  omega

theorem charAt_nonneg_iff (i : Nat) : 0 ≤ charAt text i ↔ i < text.length := by
  rcases Nat.lt_or_ge i text.length with h | h
  · exact iff_of_true (by rw [charAt_of_lt h]; omega) h
  · exact iff_of_false (by rw [charAt_of_le h]; decide) (Nat.not_lt.mpr h)

theorem window_sentinels {m i : Nat} (h : text.length ≤ i) :
    window (charAt text) m i = List.replicate m (-1) := by
  rw [window, List.eq_replicate_iff]
  refine ⟨by rw [List.length_map, List.length_range], ?_⟩
  intro c hc
  obtain ⟨j, -, rfl⟩ := List.mem_map.mp hc
  exact charAt_of_le (h.trans (Nat.le_add_right i j))

/-- Windows that reach past the text tell all places apart. -/
theorem window_injective {m i j : Nat} (hm : text.length ≤ m) (hi : i < text.length)
    (hj : j < text.length) (h : window (charAt text) m i = window (charAt text) m j) : i = j := by
  have hends : ∀ d < m, (i + d < text.length ↔ j + d < text.length) := by
    intro d hd
    rw [← charAt_nonneg_iff, ← charAt_nonneg_iff, window_entry h hd]
  have hleft := hends (text.length - i - 1) (by omega)
  have hright := hends (text.length - j - 1) (by omega)
  omega

/-- The order of windows is that of the suffixes. -/
theorem suffix_lt_of_window_lt {m i j : Nat}
    (h : window (charAt text) m i < window (charAt text) m j) :
    (text.map UInt8.toNat).drop i < (text.map UInt8.toNat).drop j := by
  induction m generalizing i j with
  | zero => exact absurd h (lt_irrefl _)
  | succ m ih =>
      have hcons : ∀ i, (hi : i < text.length) → (text.map UInt8.toNat).drop i =
          text[i].toNat :: (text.map UInt8.toNat).drop (i + 1) := by
        intro i hi
        rw [List.drop_eq_getElem_cons (by rw [List.length_map]; exact hi), List.getElem_map]
      rw [window_succ, window_succ, List.cons_lt_cons_iff] at h
      have hj : j < text.length := by
        by_contra hge
        rw [charAt_of_le (Nat.le_of_not_lt hge)] at h
        rcases Nat.lt_or_ge i text.length with hi | hi
        · have hpos := neg_one_lt_charAt hi
          omega
        · rw [window_sentinels (by omega), window_sentinels (by omega)] at h
          rcases h with h | ⟨-, h⟩
          · rw [charAt_of_le hi] at h
            exact lt_irrefl _ h
          · exact lt_irrefl _ h
      rcases Nat.lt_or_ge i text.length with hi | hi
      · rw [hcons i hi, hcons j hj, List.cons_lt_cons_iff]
        rw [charAt_of_lt hi, charAt_of_lt hj, Int.ofNat_lt, Int.ofNat_inj] at h
        exact h.imp id fun h => ⟨h.1, ih h.2⟩
      · rw [List.drop_eq_nil_of_le (by rw [List.length_map]; exact hi), hcons j hj]
        exact List.nil_lt_cons _ _

end Characters

section Rounds

variable {text : List UInt8}

/-- The rank of a place, and that of the sentinel behind the text. -/
def rankAt (n : Nat) (rank : Array Int) (i : Nat) : Int := if i < n then cell rank i else -1

theorem rankAt_of_lt {n i : Nat} (rank : Array Int) (h : i < n) : rankAt n rank i = cell rank i :=
  if_pos h

/-- What a turn finds: ranks by as many characters as the step. -/
structure Ordered (text : List UInt8) (k : Nat) (s : State) : Prop where
  perm : s.sa.Perm (List.range text.length)
  rankSize : s.rank.size = text.length
  tmpSize : s.tmp.size = text.length
  ranks : RanksBy (charAt text) k (rankAt text.length s.rank)

theorem start_ordered (text : List UInt8) : Ordered text 1 (start text) := by
  refine ⟨List.Perm.refl _, by simp [start], by simp [start], ?_⟩
  have hrank : rankAt text.length (start text).rank = charAt text := by
    funext i
    rcases Nat.lt_or_ge i text.length with hi | hi
    · rw [rankAt_of_lt _ hi, charAt_of_lt hi, cell, start]
      simp [hi]
    · rw [rankAt, if_neg (Nat.not_lt.mpr hi), charAt_of_le hi]
  intro i j
  rw [hrank, window_succ, window_succ, List.cons_lt_cons_iff]
  simp [window]

theorem key_returns {n k i : Nat} {rank : Array Int} (hsize : rank.size = n) (hi : i < n) :
    key rank n k i = some (rankAt n rank i, rankAt n rank (i + k)) := by
  have hfirst : rank[i]? = some (rankAt n rank i) := by
    rw [rankAt_of_lt _ hi, getElem?_eq_cell (by omega)]
  unfold key
  split
  · rename_i hk
    rw [rankAt_of_lt _ hk, getElem?_eq_cell (show i + k < rank.size by omega), hfirst]
    rfl
  · rename_i hk
    rw [hfirst, rankAt.eq_1 n rank (i + k), if_neg hk]
    rfl

theorem compareKeys_lt_iff (a b : Int × Int) : compareKeys a b = .lt ↔ toLex a < toLex b := by
  rw [compareKeys, Ordering.then_eq_lt, compare_lt_iff_lt, compare_eq_iff_eq, compare_lt_iff_lt,
    Prod.Lex.toLex_lt_toLex]

theorem Ordered.lt {k : Nat} {s : State} (h : Ordered text k s) {i : Nat} (hi : i ∈ s.sa) :
    i < text.length := List.mem_range.mp (h.perm.mem_iff.mp hi)

/-- The sort is by windows of twice the step. -/
theorem sortByKey_returns {k : Nat} {s : State} (h : Ordered text k s) :
    Returns (sortByKey s.rank text.length k s.sa) fun sa =>
      sa.Perm (List.range text.length) ∧ sa.Pairwise fun i j =>
        window (charAt text) (2 * k) i ≤ window (charAt text) (2 * k) j := by
  have hbefore : ∀ a ∈ s.sa, ∀ b ∈ s.sa,
      (do let ka ← key s.rank text.length k a
          let kb ← key s.rank text.length k b
          some (decide (compareKeys ka kb = .lt))) =
        some (decide (window (charAt text) (2 * k) a < window (charAt text) (2 * k) b)) := by
    intro a ha b hb
    rw [key_returns h.rankSize (h.lt ha), key_returns h.rankSize (h.lt hb)]
    simp only [Option.bind_eq_bind, Option.bind_some, compareKeys_lt_iff, Option.some.injEq,
      decide_eq_decide]
    exact h.ranks.double a b
  obtain ⟨sa, hsa, hperm⟩ : Returns (sortByKey s.rank text.length k s.sa) fun sa =>
      sa.Perm s.sa := insertionSort_returns fun a ha b hb => by rw [hbefore a ha b hb]; rfl
  refine ⟨sa, hsa, hperm.trans h.perm, ?_⟩
  refine insertionSort_sorted (R := fun _ _ => True)
    (S := fun i j => window (charAt text) (2 * k) i ≤ window (charAt text) (2 * k) j)
    (fun _ _ _ => le_trans) (List.pairwise_of_forall fun _ _ => True.intro) ?_ hsa
  intro p hp x hx _
  rw [hbefore x hx p hp]
  rcases lt_or_ge (window (charAt text) (2 * k) x) (window (charAt text) (2 * k) p) with hlt | hge
  · exact .inl ⟨by rw [decide_eq_true hlt], hlt.le⟩
  · exact .inr ⟨by rw [decide_eq_false hge.not_gt], hge⟩

/-- The windows of the sorted places. -/
def sortedKeys (text : List UInt8) (k : Nat) (sa : List Nat) (w : Nat) : List Int :=
  window (charAt text) (2 * k) (sa.getD w 0)

theorem rerank_returns {k : Nat} {s : State} (h : Ordered text k s) (hn : 0 < text.length)
    {sa : List Nat} (hperm : sa.Perm (List.range text.length)) :
    Returns (rerank s.rank text.length k sa s.tmp) fun tmp =>
      tmp.size = text.length ∧ ∀ w < text.length,
        cell tmp (sa.getD w 0) = changes (sortedKeys text k sa) w := by
  have hlength : sa.length = text.length := by rw [hperm.length_eq, List.length_range]
  have hget : ∀ w < text.length, sa[w]? = some (sa.getD w 0) := by
    intro w hw
    rw [List.getD_eq_getElem?_getD, List.getElem?_eq_getElem (by omega)]
    rfl
  have hlt : ∀ w < text.length, sa.getD w 0 < text.length := by
    intro w hw
    exact List.mem_range.mp (hperm.mem_iff.mp (List.mem_of_getElem? (hget w hw)))
  have hne : ∀ v w, v < text.length → w < text.length → v ≠ w → sa.getD v 0 ≠ sa.getD w 0 := by
    intro v w hv hw hvw heq
    have hnodup : sa.Nodup := hperm.nodup_iff.mpr List.nodup_range
    refine hvw ((List.getElem?_inj (by omega) hnodup).mp ?_)
    rw [hget v hv, hget w hw, heq]
  have hloop : Returns (forUp (fun w tmp => do
      let prev ← sa[w - 1]?
      let cur ← sa[w]?
      let kprev ← key s.rank text.length k prev
      let kcur ← key s.rank text.length k cur
      let inc : Int := if kprev = kcur then 0 else 1
      let last ← tmp[prev]?
      put tmp cur (last + inc)) 1 (text.length - 1) (s.tmp.setIfInBounds (sa.getD 0 0) 0))
      fun tmp => tmp.size = text.length ∧ ∀ w < 1 + (text.length - 1),
        cell tmp (sa.getD w 0) = changes (sortedKeys text k sa) w := by
    refine forUp_returns (fun w (tmp : Array Int) => tmp.size = text.length ∧
      ∀ v < w, cell tmp (sa.getD v 0) = changes (sortedKeys text k sa) v) 1 _ _ ⟨?_, ?_⟩ ?_
    · rw [Array.size_setIfInBounds, h.tmpSize]
    · intro v hv
      obtain rfl : v = 0 := by omega
      rw [cell_set_self _ (by rw [h.tmpSize]; exact hlt 0 hn)]
      rfl
    · rintro w tmp hlo hhi ⟨hsize, hcells⟩
      obtain ⟨v, rfl⟩ : ∃ v, w = v + 1 := ⟨w - 1, by omega⟩
      have hv : v < text.length := by omega
      have hw : v + 1 < text.length := by omega
      have hsame : ((rankAt text.length s.rank (sa.getD v 0),
            rankAt text.length s.rank (sa.getD v 0 + k)) =
          (rankAt text.length s.rank (sa.getD (v + 1) 0),
            rankAt text.length s.rank (sa.getD (v + 1) 0 + k))) ↔
          sortedKeys text k sa v = sortedKeys text k sa (v + 1) :=
        (toLex_inj).symm.trans (h.ranks.double.eq_iff _ _)
      rw [Nat.add_sub_cancel, hget v hv, hget (v + 1) hw]
      simp only [Option.bind_eq_bind, Option.bind_some]
      rw [key_returns h.rankSize (hlt v hv), key_returns h.rankSize (hlt (v + 1) hw)]
      simp only [Option.bind_some]
      rw [getElem?_eq_cell (by rw [hsize]; exact hlt v hv), Option.bind_some,
        put_eq_some _ (by rw [hsize]; exact hlt (v + 1) hw)]
      refine Returns.pure ⟨by rw [Array.size_setIfInBounds, hsize], ?_⟩
      intro u hu
      rcases Nat.lt_succ_iff_lt_or_eq.mp hu with hlt' | rfl
      · rw [cell_set_ne _ (hne u (v + 1) (by omega) hw (by omega)), hcells u hlt']
      · rw [cell_set_self _ (by rw [hsize]; exact hlt (v + 1) hw), hcells v (by omega), changes,
          Nat.cast_add]
        congr 1
        simp only [hsame]
        split
        · rfl
        · rfl
  rw [rerank, hget 0 hn]
  simp only [Option.bind_eq_bind, Option.bind_some,
    put_eq_some (0 : Int) (show sa.getD 0 0 < s.tmp.size by rw [h.tmpSize]; exact hlt 0 hn)]
  rwa [Nat.add_sub_cancel' hn] at hloop

/-- What a turn leaves: ranks by twice as many characters, counted along the sorted places. -/
structure Ranked (text : List UInt8) (k : Nat) (s : State) : Prop extends
    Ordered text (2 * k) s where
  sorted : s.sa.Pairwise fun i j =>
    window (charAt text) (2 * k) i ≤ window (charAt text) (2 * k) j
  counted : ∀ w < text.length, cell s.rank (s.sa.getD w 0) = changes (sortedKeys text k s.sa) w

theorem sortedKeys_mono {k : Nat} {sa : List Nat} (hlength : sa.length = text.length)
    (hsorted : sa.Pairwise fun i j =>
      window (charAt text) (2 * k) i ≤ window (charAt text) (2 * k) j) (v w : Nat) (hvw : v ≤ w)
    (hw : w < text.length) : sortedKeys text k sa v ≤ sortedKeys text k sa w := by
  rcases Nat.lt_or_eq_of_le hvw with hlt | rfl
  · have hpair := List.pairwise_iff_getElem.mp hsorted v w (by omega) (by omega) hlt
    rw [List.getElem_eq_getD 0, List.getElem_eq_getD 0] at hpair
    exact hpair
  · exact le_rfl

/-- Every place stands somewhere among the sorted ones. -/
theorem sorted_place {sa : List Nat} (hperm : sa.Perm (List.range text.length)) {i : Nat}
    (hi : i < text.length) : ∃ v < text.length, sa.getD v 0 = i := by
  obtain ⟨v, hv, hget⟩ := List.mem_iff_getElem.mp (hperm.mem_iff.mpr (List.mem_range.mpr hi))
  refine ⟨v, by rwa [hperm.length_eq, List.length_range] at hv, ?_⟩
  rw [← hget, List.getElem_eq_getD]

theorem sentinels_lt {m i j : Nat} (hm : 0 < m) (hi : text.length ≤ i) (hj : j < text.length) :
    window (charAt text) m i < window (charAt text) m j := by
  obtain ⟨m, rfl⟩ : ∃ l, m = l + 1 := ⟨m - 1, by omega⟩
  rw [window_succ, window_succ, List.cons_lt_cons_iff, charAt_of_le hi]
  exact .inl (neg_one_lt_charAt hj)

theorem round_returns {k : Nat} {s : State} (h : Ordered text k s) (hk : 0 < k)
    (hn : 0 < text.length) : Returns (round text.length k s) (Ranked text k) := by
  obtain ⟨sa, hsa, hperm, hsorted⟩ := sortByKey_returns h
  obtain ⟨tmp, htmp, hsize, hcount⟩ := rerank_returns h hn hperm
  have hlength : sa.length = text.length := by rw [hperm.length_eq, List.length_range]
  refine ⟨{ sa, rank := tmp, tmp := s.rank }, by rw [round, hsa]; simp [htmp], ?_⟩
  refine ⟨⟨hperm, hsize, h.rankSize, ?_⟩, hsorted, hcount⟩
  have hrank : ∀ i, (hi : i < text.length) → 0 ≤ rankAt text.length tmp i := by
    intro i hi
    obtain ⟨v, hv, rfl⟩ := sorted_place hperm hi
    rw [rankAt_of_lt _ hi, hcount v hv]
    exact Int.natCast_nonneg _
  have hout : ∀ i, text.length ≤ i → rankAt text.length tmp i = -1 := fun i hi =>
    if_neg (Nat.not_lt.mpr hi)
  intro i j
  change rankAt text.length tmp i < rankAt text.length tmp j ↔ _
  rcases Nat.lt_or_ge i text.length with hi | hi <;>
    rcases Nat.lt_or_ge j text.length with hj | hj
  · obtain ⟨v, hv, rfl⟩ := sorted_place hperm hi
    obtain ⟨w, hw, rfl⟩ := sorted_place hperm hj
    rw [rankAt_of_lt _ hi, rankAt_of_lt _ hj, hcount v hv, hcount w hw, Int.ofNat_lt]
    exact changes_lt_iff (sortedKeys_mono hlength hsorted) hv hw
  · refine iff_of_false ?_ (sentinels_lt (by omega) hj hi).not_gt
    have hpos := hrank i hi
    rw [hout j hj]
    omega
  · refine iff_of_true ?_ (sentinels_lt (by omega) hi hj)
    have hpos := hrank j hj
    rw [hout i hi]
    omega
  · refine iff_of_false ?_ ?_
    · rw [hout i hi, hout j hj]
      exact lt_irrefl _
    · rw [window_sentinels hi, window_sentinels hj]
      exact lt_irrefl _

/-- Ranks agree where the windows do. -/
theorem Ordered.rank_eq_iff {k : Nat} {s : State} (h : Ordered text k s) {i j : Nat}
    (hi : i < text.length) (hj : j < text.length) :
    cell s.rank i = cell s.rank j ↔ window (charAt text) k i = window (charAt text) k j := by
  rw [← h.ranks.eq_iff i j, rankAt_of_lt _ hi, rankAt_of_lt _ hj]

/-- All places have ranks of their own. -/
def Distinct (n : Nat) (rank : Array Int) : Prop :=
  ∀ i < n, ∀ j < n, cell rank i = cell rank j → i = j

/-- The ranks are distinct when the windows ascend strictly along the sorted places. -/
theorem Ranked.distinct_iff {k : Nat} {s : State} (h : Ranked text k s) :
    Distinct text.length s.rank ↔
      ∀ v w, v < w → w < text.length → sortedKeys text k s.sa v < sortedKeys text k s.sa w := by
  have hlength : s.sa.length = text.length := by rw [h.perm.length_eq, List.length_range]
  have hplace : ∀ v < text.length, s.sa.getD v 0 ∈ s.sa := by
    intro v hv
    rw [← List.getElem_eq_getD (h := by omega) 0]
    exact List.getElem_mem _
  constructor
  · intro hdistinct v w hvw hw
    have hv : v < text.length := hvw.trans hw
    refine lt_of_le_of_ne (sortedKeys_mono hlength h.sorted v w hvw.le hw) fun heq => ?_
    have hsame := hdistinct _ (h.lt (hplace v hv)) _ (h.lt (hplace w hw))
      ((h.rank_eq_iff (h.lt (hplace v hv)) (h.lt (hplace w hw))).mpr heq)
    rw [← List.getElem_eq_getD (h := by omega) 0, ← List.getElem_eq_getD (h := by omega) 0,
      (h.perm.nodup_iff.mpr List.nodup_range).getElem_inj_iff] at hsame
    omega
  · intro hstrict i hi j hj heq
    have hwindows := (h.rank_eq_iff hi hj).mp heq
    obtain ⟨v, hv, rfl⟩ := sorted_place h.perm hi
    obtain ⟨w, hw, rfl⟩ := sorted_place h.perm hj
    rcases Nat.lt_trichotomy v w with hvw | rfl | hwv
    · exact absurd hwindows (hstrict v w hvw hw).ne
    · rfl
    · exact absurd hwindows (hstrict w v hwv hv).ne'

/-- The exit is taken when the ranks are distinct. -/
theorem exits_returns {k : Nat} {s : State} (h : Ranked text k s) (hn : 0 < text.length) :
    ∃ done, exits text.length s = some done ∧ (done = true ↔ Distinct text.length s.rank) := by
  have hlength : s.sa.length = text.length := by rw [h.perm.length_eq, List.length_range]
  obtain ⟨n, hn'⟩ : ∃ n, text.length = n + 1 := ⟨text.length - 1, by omega⟩
  have hlast : s.sa[text.length - 1]? = some (s.sa.getD (text.length - 1) 0) := by
    rw [List.getElem?_eq_getElem (by omega), List.getElem_eq_getD 0]
  have hmem : s.sa.getD (text.length - 1) 0 < text.length := h.lt (List.mem_of_getElem? hlast)
  refine ⟨decide ((changes (sortedKeys text k s.sa) (text.length - 1) : Int) =
    (text.length : Int) - 1), ?_, ?_⟩
  · rw [exits, hlast]
    simp only [Option.bind_eq_bind, Option.bind_some]
    rw [getElem?_eq_cell (by rw [h.rankSize]; exact hmem), h.counted _ (by omega)]
    rfl
  · rw [decide_eq_true_iff, h.distinct_iff]
    have hmono := sortedKeys_mono hlength h.sorted
    rw [hn'] at hmono ⊢
    rw [← changes_last hmono, Nat.add_sub_cancel, Nat.cast_add, Nat.cast_one,
      Int.add_sub_cancel, Int.ofNat_inj]

/-- Distinct ranks order the suffixes. -/
theorem Ranked.isSuffixArray {k : Nat} {s : State} (h : Ranked text k s)
    (hdistinct : Distinct text.length s.rank) : IsSuffixArray (text.map UInt8.toNat) s.sa := by
  refine ⟨by rw [List.length_map]; exact h.perm, ?_⟩
  have hlength : s.sa.length = text.length := by rw [h.perm.length_eq, List.length_range]
  rw [List.pairwise_iff_getElem]
  intro v w hv hw hvw
  have hlt := h.distinct_iff.mp hdistinct v w hvw (by omega)
  rw [sortedKeys, sortedKeys, ← List.getElem_eq_getD (h := hv) 0,
    ← List.getElem_eq_getD (h := hw) 0] at hlt
  exact suffix_lt_of_window_lt hlt

/-- Once the windows reach past the text the ranks are distinct. -/
theorem Ranked.distinct_of_le {k : Nat} {s : State} (h : Ranked text k s)
    (hk : text.length ≤ 2 * k) : Distinct text.length s.rank := by
  intro i hi j hj heq
  exact window_injective hk hi hj ((h.rank_eq_iff hi hj).mp heq)

theorem rounds_returns (fuel : Nat) {k : Nat} {s : State} (h : Ordered text k s) (hk : 0 < k)
    (hlt : k < text.length) (hfuel : text.length ≤ fuel + k) :
    Returns (rounds text.length fuel k s) (IsSuffixArray (text.map UInt8.toNat)) := by
  induction fuel generalizing k s with
  | zero => omega
  | succ fuel ih =>
      obtain ⟨s', hround, hranked⟩ := round_returns h hk (by omega)
      obtain ⟨done, hexits, hdone⟩ := exits_returns hranked (by omega)
      rw [rounds, if_pos hlt, hround]
      simp only [Option.bind_eq_bind, Option.bind_some]
      rw [hexits, Option.bind_some]
      cases hd : done with
      | true => exact ⟨s'.sa, rfl, hranked.isSuffixArray (hdone.mp hd)⟩
      | false =>
          have hmore : 2 * k < text.length := by
            by_contra hge
            have htrue := hdone.mpr (hranked.distinct_of_le (Nat.le_of_not_lt hge))
            rw [hd] at htrue
            exact absurd htrue (by decide)
          have hshift : k <<< 1 = 2 * k := by rw [Nat.shiftLeft_eq, Nat.mul_comm]
          rw [if_neg (by decide), hshift]
          exact ih hranked.toOrdered (by omega) hmore (by omega)

end Rounds

section Construction

variable {text : List UInt8}

/-- What the loop holds at the start of a turn. -/
inductive Reaches (text : List UInt8) : Nat → State → Prop
  | start : Reaches text 1 (start text)
  | next {k : Nat} {s s' : State} (hs : Reaches text k s) (hlt : k < text.length)
      (hround : round text.length k s = some s') (hgoes : exits text.length s' = some false) :
      Reaches text (k <<< 1) s'

theorem Reaches.ordered {k : Nat} {s : State} (h : Reaches text k s) :
    0 < k ∧ Ordered text k s := by
  induction h with
  | start => exact ⟨Nat.one_pos, start_ordered text⟩
  | @next k s s' hs hlt hround hgoes ih =>
      obtain ⟨t, ht, hranked⟩ := round_returns ih.2 ih.1 (by omega)
      obtain rfl := Option.some.inj (hround.symm.trans ht)
      have hshift : k <<< 1 = 2 * k := by rw [Nat.shiftLeft_eq, Nat.mul_comm]
      rw [hshift]
      exact ⟨by omega, hranked.toOrdered⟩

theorem isSuffixArray_nil : IsSuffixArray (([] : List UInt8).map UInt8.toNat) [] :=
  ⟨List.Perm.refl _, List.Pairwise.nil⟩

theorem isSuffixArray_singleton (b : UInt8) : IsSuffixArray ([b].map UInt8.toNat) [0] :=
  ⟨List.Perm.refl _, List.pairwise_singleton _ _⟩

/-- Prefix doubling gives the suffix array of every text, and every turn ranks the suffixes by
twice as many characters, until they all differ. -/
theorem suffixArray_correct (text : List UInt8) :
    (∃ sa, suffixArray text = some sa ∧ IsSuffixArray (text.map UInt8.toNat) sa) ∧
    ∀ k s, Reaches text k s → k < text.length →
      ∃ s' done, round text.length k s = some s' ∧ exits text.length s' = some done ∧
        (∀ i < text.length, ∀ j < text.length, cell s'.rank i = cell s'.rank j ↔
          window (charAt text) (2 * k) i = window (charAt text) (2 * k) j) ∧
        (done = true ↔ Distinct text.length s'.rank) := by
  refine ⟨?_, ?_⟩
  · match text with
    | [] => exact ⟨[], rfl, isSuffixArray_nil⟩
    | [b] => exact ⟨[0], rfl, isSuffixArray_singleton b⟩
    | a :: b :: rest =>
        have hlength : 1 < (a :: b :: rest).length := by simp
        rw [suffixArray]
        simp only [if_neg (show (a :: b :: rest).length ≠ 0 by simp),
          if_neg (show (a :: b :: rest).length ≠ 1 by simp)]
        exact rounds_returns _ (start_ordered _) Nat.one_pos hlength (Nat.le_succ _)
  · intro k s hreach hlt
    obtain ⟨hk, hordered⟩ := hreach.ordered
    obtain ⟨s', hround, hranked⟩ := round_returns hordered hk (by omega)
    obtain ⟨done, hexits, hdone⟩ := exits_returns hranked (by omega)
    exact ⟨s', done, hround, hexits, fun i hi j hj => hranked.rank_eq_iff hi hj, hdone⟩

end Construction

end DirtybirdMiner.Sais.PrefixDoubling
