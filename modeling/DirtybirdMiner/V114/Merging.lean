import Mathlib.Data.List.Nodup
import Mathlib.Data.List.SplitLengths
import Mathlib.Data.List.TakeWhile
import DirtybirdMiner.V114.Runs

/-!
Merging runs of the same key.  The two buffers change roles from pass to pass;
what a pass keeps is a list of sorted segments that lie side by side in the
front of the source buffer.

A merge is a permutation whatever the text is.  That it is sorted needs the three
zero bytes behind the text, and `Behind` carries that condition.
-/

namespace DirtybirdMiner.V114.Merging

open DirtybirdMiner.Lib.Bytes
open DirtybirdMiner.Lib.Checked
open DirtybirdMiner.Lib.Buffers
open DirtybirdMiner.Lib.Sorting
open DirtybirdMiner.V114.Model
open DirtybirdMiner.V114.Order
open DirtybirdMiner.V114.Runs

/-- The suffix of `p` comes before the suffix of `q`, if the tail is zero. -/
def Behind (data : List UInt8) (n p q : Nat) : Prop :=
  ZeroTail data n → suffix data n p < suffix data n q

/-- The parts put together, in the order of their suffixes. -/
structure Merged (data : List UInt8) (n : Nat) (parts out : List Nat) : Prop where
  perm : out.Perm parts
  sorted : out.Pairwise (Behind data n)

section Orders

variable {data : List UInt8} {n : Nat}

theorem Behind.trans (p q r : Nat) (hpq : Behind data n p q) (hqr : Behind data n q r) :
    Behind data n p r := fun hzero => (hpq hzero).trans (hqr hzero)

theorem RunOf.behind {key : Nat} {positions : List Nat} (h : RunOf data n key positions) :
    positions.Pairwise (Behind data n) := h.sorted.imp fun hlt _ => hlt

theorem Merged.append {parts parts' out out' : List Nat} (h : Merged data n parts out)
    (h' : Merged data n parts' out') (hcross : ∀ p ∈ parts, ∀ q ∈ parts', Behind data n p q) :
    Merged data n (parts ++ parts') (out ++ out') where
  perm := h.perm.append h'.perm
  sorted := List.pairwise_append.mpr ⟨h.sorted, h'.sorted, fun p hp q hq =>
    hcross p (h.perm.mem_iff.mp hp) q (h'.perm.mem_iff.mp hq)⟩

/-- A comparison that decides the order of two positions. -/
def Settles (data : List UInt8) (n : Nat) (less : Nat → Nat → Option Bool) (p q : Nat) : Prop :=
  less p q = some true ∧ Behind data n p q ∨ less p q = some false ∧ Behind data n q p

/-- Distinct positions of the text with one key. -/
structure SameKey (data : List UInt8) (n key : Nat) (positions : List Nat) : Prop where
  bound : ∀ p ∈ positions, p < n
  key : ∀ p ∈ positions, orderKeyAt data p = key
  nodup : positions.Nodup

theorem SameKey.permute {key : Nat} {positions positions' : List Nat}
    (h : SameKey data n key positions) (hperm : positions'.Perm positions) :
    SameKey data n key positions' where
  bound := fun p hp => h.bound p (hperm.mem_iff.mp hp)
  key := fun p hp => h.key p (hperm.mem_iff.mp hp)
  nodup := hperm.nodup_iff.mpr h.nodup

theorem SameKey.sublist {key : Nat} {positions positions' : List Nat}
    (h : SameKey data n key positions) (hsub : positions'.Sublist positions) :
    SameKey data n key positions' where
  bound := fun p hp => h.bound p (hsub.subset hp)
  key := fun p hp => h.key p (hsub.subset hp)
  nodup := h.nodup.sublist hsub

end Orders

section Comparisons

variable {view : Stage5View} {key : Nat} {positions : List Nat}

/-- Without the zero tail any comparison that returns will do. -/
theorem settles_of_decides {less : Nat → Nat → Option Bool} {p q : Nat}
    (hsome : (less p q).isSome)
    (h : ZeroTail view.data view.logicalLen → Decides view (less p q) p q) :
    Settles view.data view.logicalLen less p q := by
  by_cases hzero : ZeroTail view.data view.logicalLen
  · rcases h hzero with ⟨htrue, hlt⟩ | ⟨hfalse, hlt⟩
    · exact .inl ⟨htrue, fun _ => hlt⟩
    · exact .inr ⟨hfalse, fun _ => hlt⟩
  · obtain ⟨b, hb⟩ := Option.isSome_iff_exists.mp hsome
    cases b with
    | true => exact .inl ⟨hb, fun h => absurd h hzero⟩
    | false => exact .inr ⟨hb, fun h => absurd h hzero⟩

theorem suffixLessAfterKey_settles (hlen : view.logicalLen + 3 ≤ view.data.length)
    (h : SameKey view.data view.logicalLen key positions) {p q : Nat} (hp : p ∈ positions)
    (hq : q ∈ positions) (hne : p ≠ q) :
    Settles view.data view.logicalLen (suffixLessAfterKey view) p q := by
  have hp' := (h.bound p hp).le
  have hq' := (h.bound q hq).le
  refine settles_of_decides (suffixLessAfterKey_isSome (by omega) hp' hq') ?_
  intro hzero
  refine suffixLessAfterKey_decides (by omega) hp' hq' hne ?_
  exact pad_eq_of_orderKeyAt hzero hlen hp' hq' ((h.key p hp).trans (h.key q hq).symm)

theorem twoRunsLess_settles (hlen : view.logicalLen + 3 ≤ view.data.length)
    (h : SameKey view.data view.logicalLen key positions) {p q : Nat} (hp : p ∈ positions)
    (hq : q ∈ positions) (hne : p ≠ q) :
    Settles view.data view.logicalLen (twoRunsLess view) p q := by
  have hp' := (h.bound p hp).le
  have hq' := (h.bound q hq).le
  refine settles_of_decides (twoRunsLess_isSome (by omega) hp' hq') ?_
  intro hzero
  refine twoRunsLess_decides (by omega) hp' hq' hne ?_
  exact pad_eq_of_orderKeyAt hzero hlen hp' hq' ((h.key p hp).trans (h.key q hq).symm)

/-- The merge of two sorted parts. -/
theorem merge_merged {data : List UInt8} {n : Nat} {less : Nat → Nat → Option Bool}
    {left right : List Nat} (hleft : left.Pairwise (Behind data n))
    (hright : right.Pairwise (Behind data n)) (hnodup : (left ++ right).Nodup)
    (hless : ∀ p ∈ left ++ right, ∀ q ∈ left ++ right, p ≠ q → Settles data n less p q) :
    Returns (merge less left right) (Merged data n (left ++ right)) := by
  have hsettle : ∀ l ∈ left, ∀ r ∈ right, Settles data n less l r := by
    intro l hl r hr
    refine hless l (List.mem_append_left _ hl) r (List.mem_append_right _ hr) ?_
    rintro rfl
    exact (List.nodup_append'.mp hnodup).2.2 hl hr
  obtain ⟨out, hout, hperm⟩ : Returns (merge less left right) fun out =>
      out.Perm (left ++ right) := merge_returns fun l hl r hr => by
    rcases hsettle l hl r hr with ⟨h, -⟩ | ⟨h, -⟩ <;> rw [h] <;> rfl
  exact ⟨out, hout, hperm, merge_sorted Behind.trans hleft hright hsettle hout⟩

/-- The insertion sort of single positions. -/
theorem insertionSort_merged {data : List UInt8} {n : Nat} {less : Nat → Nat → Option Bool}
    {items : List Nat} (hnodup : items.Nodup)
    (hless : ∀ p ∈ items, ∀ q ∈ items, p ≠ q → Settles data n less p q)
    (hself : ∀ p ∈ items, (less p p).isSome) :
    Returns (insertionSort less items) (Merged data n items) := by
  obtain ⟨out, hout, hperm⟩ : Returns (insertionSort less items) fun out => out.Perm items :=
    insertionSort_returns fun p hp q hq => by
      rcases eq_or_ne p q with rfl | hpq
      · exact hself p hp
      · rcases hless p hp q hq hpq with ⟨h, -⟩ | ⟨h, -⟩ <;> rw [h] <;> rfl
  refine ⟨out, hout, hperm, insertionSort_sorted (R := fun p q => p ≠ q) Behind.trans hnodup ?_ hout⟩
  intro p hp q hq hne
  exact hless q hq p hp hne.symm

end Comparisons

section Passes

variable {view : Stage5View} {key : Nat}

/-- Sorted segments of positions with one key. -/
structure Segments (data : List UInt8) (n key : Nat) (segs : List (List Nat)) : Prop where
  sorted : ∀ seg ∈ segs, seg.Pairwise (Behind data n)
  sameKey : SameKey data n key segs.flatten

theorem Segments.tail {data : List UInt8} {n : Nat} {seg : List Nat} {segs : List (List Nat)}
    (h : Segments data n key (seg :: segs)) : Segments data n key segs where
  sorted := fun s hs => h.sorted s (List.mem_cons_of_mem _ hs)
  sameKey := h.sameKey.sublist (by rw [List.flatten_cons]; exact List.sublist_append_right _ _)

theorem Segments.merged_of_length_le_one {data : List UInt8} {n : Nat} {segs : List (List Nat)}
    (h : Segments data n key segs) (hle : segs.length ≤ 1) :
    Merged data n segs.flatten segs.flatten := by
  match segs, hle with
  | [], _ => exact ⟨List.Perm.refl _, List.Pairwise.nil⟩
  | [seg], _ => exact ⟨List.Perm.refl _, by simpa using h.sorted seg⟩

theorem Segments.merge_returns (hlen : view.logicalLen + 3 ≤ view.data.length) {left right : List Nat}
    {segs : List (List Nat)} (h : Segments view.data view.logicalLen key (left :: right :: segs)) :
    Returns (merge (suffixLessAfterKey view) left right)
      (Merged view.data view.logicalLen (left ++ right)) := by
  have hsame : SameKey view.data view.logicalLen key (left ++ right) := by
    refine h.sameKey.sublist ?_
    rw [List.flatten_cons, List.flatten_cons, ← List.append_assoc]
    exact List.sublist_append_left _ _
  exact merge_merged (h.sorted left (by simp)) (h.sorted right (by simp)) hsame.nodup
    fun p hp q hq hne => suffixLessAfterKey_settles hlen hsame hp hq hne

/-- What one pass makes of the segments, and where it puts the result. -/
structure Passed (data : List UInt8) (n : Nat) (segs : List (List Nat)) (base : Nat)
    (dst : List Nat) (r : List Nat × List Nat) (segs' : List (List Nat)) : Prop where
  lengths : r.1 = segs'.map List.length
  perm : segs'.flatten.Perm segs.flatten
  sorted : ∀ seg ∈ segs', seg.Pairwise (Behind data n)
  count : segs'.length = (segs.length + 1) / 2
  length : r.2.length = dst.length
  kept : r.2.take base = dst.take base
  written : slice r.2 base segs.flatten.length = segs'.flatten

/-- One block written in front of what the rest of a pass writes. -/
theorem Passed.cons {data : List UInt8} {n base : Nat} {parts merged dst : List Nat}
    {segs segs' : List (List Nat)} {r : List Nat × List Nat} (hmerged : Merged data n parts merged)
    (hfits : base + merged.length ≤ dst.length)
    (h : Passed data n segs (base + parts.length) (copyAt dst base merged) r segs') :
    (merged :: segs').flatten.Perm (parts ++ segs.flatten) ∧ r.2.length = dst.length ∧
      r.2.take base = dst.take base ∧
      slice r.2 base (parts ++ segs.flatten).length = (merged :: segs').flatten := by
  have hlength := hmerged.perm.length_eq
  have hkept := h.kept
  rw [← hlength, take_copyAt hfits] at hkept
  refine ⟨?_, ?_, ?_, ?_⟩
  · rw [List.flatten_cons]
    exact hmerged.perm.append h.perm
  · rw [h.length, copyAt_length hfits]
  · have htake := congrArg (List.take base) hkept
    rwa [List.take_take, min_eq_left (by omega), List.take_append_of_le_length
      (by rw [List.length_take]; omega), List.take_take, min_self] at htake
  · have hslice : slice r.2 base merged.length = merged := by
      rw [← slice_take le_rfl, hkept, slice, List.drop_append_of_le_length
        (by rw [List.length_take]; omega), List.drop_eq_nil_of_le (by rw [List.length_take]; omega),
        List.nil_append, List.take_length]
    rw [List.length_append, ← hlength, slice_add, hslice, hlength, h.written, List.flatten_cons]

theorem mergePass_returns (hlen : view.logicalLen + 3 ≤ view.data.length) {src : List Nat} :
    ∀ (segs : List (List Nat)) (base : Nat) (dst : List Nat),
      Segments view.data view.logicalLen key segs →
      base + segs.flatten.length ≤ src.length → src.length = dst.length →
      slice src base segs.flatten.length = segs.flatten →
      Returns (mergePass view src (segs.map List.length) base dst) fun r =>
        ∃ segs', Passed view.data view.logicalLen segs base dst r segs'
  | [], base, dst, _, _, _, _ => by
      refine Returns.pure ⟨[], rfl, List.Perm.refl _, by simp, by simp, rfl, rfl, ?_⟩
      simp
  | [left], base, dst, hsegs, hfit, hdst, hsrc => by
      simp only [List.flatten_cons, List.flatten_nil, List.append_nil] at hfit hsrc
      rw [List.map_cons, List.map_nil, mergePass, readAt_eq_some hfit, hsrc]
      simp only [Option.bind_eq_bind, Option.bind_some, writeAt_eq_some (hdst ▸ hfit)]
      refine Returns.pure ⟨[left], rfl, List.Perm.refl _, hsegs.sorted, by simp,
        copyAt_length (hdst ▸ hfit), ?_, ?_⟩
      · rw [take_eq_slice, slice_copyAt_before (hdst ▸ hfit) (by omega), take_eq_slice]
      · simpa using slice_copyAt_self (hdst ▸ hfit)
  | left :: right :: segs, base, dst, hsegs, hfit, hdst, hsrc => by
      simp only [List.flatten_cons, List.length_append] at hfit hsrc
      rw [slice_add, slice_add, ← List.append_assoc, ← List.append_assoc] at hsrc
      obtain ⟨hsrc, hrest⟩ := List.append_inj hsrc (by
        rw [List.length_append, List.length_append, slice_length (by omega),
          slice_length (by omega)])
      obtain ⟨hleft, hright⟩ := List.append_inj hsrc (slice_length (by omega))
      rw [List.map_cons, List.map_cons, mergePass, readAt_eq_some (by omega),
        readAt_eq_some (by omega), hleft, hright]
      simp only [Option.bind_eq_bind, Option.bind_some]
      refine Returns.bind (hsegs.merge_returns hlen) ?_
      intro merged hmerged
      have hlength := hmerged.perm.length_eq
      rw [List.length_append] at hlength
      have hwrite : base + merged.length ≤ dst.length := by omega
      rw [writeAt_eq_some hwrite]
      simp only [Option.bind_some]
      refine Returns.bind (mergePass_returns hlen segs (base + left.length + right.length)
        (copyAt dst base merged) hsegs.tail.tail (by omega) (by rw [copyAt_length hwrite, hdst])
        hrest) ?_
      rintro ⟨lengths, dst'⟩ ⟨segs', hpassed⟩
      rw [Nat.add_assoc, ← List.length_append] at hpassed
      obtain ⟨hperm, hlength', hkept, hwritten⟩ := hpassed.cons hmerged hwrite
      refine Returns.pure ⟨merged :: segs', ?_, ?_, ?_, ?_, hlength', hkept, ?_⟩
      · rw [List.map_cons, hlength, ← hpassed.lengths]
      · rwa [List.flatten_cons (l := left), List.flatten_cons (l := right), ← List.append_assoc]
      · intro seg hseg
        rcases List.mem_cons.mp hseg with rfl | hseg
        · exact hmerged.sorted
        · exact hpassed.sorted seg hseg
      · rw [List.length_cons, hpassed.count, List.length_cons, List.length_cons]
        omega
      · rwa [List.flatten_cons, List.flatten_cons, ← List.append_assoc]

theorem mergePasses_returns (hlen : view.logicalLen + 3 ≤ view.data.length) (fuel : Nat)
    {segs : List (List Nat)} {src dst : List Nat}
    (hsegs : Segments view.data view.logicalLen key segs) (hfuel : segs.length ≤ fuel)
    (hfit : segs.flatten.length ≤ src.length) (hdst : src.length = dst.length)
    (hsrc : src.take segs.flatten.length = segs.flatten) :
    Returns (mergePasses view fuel (segs.map List.length) src dst) fun r =>
      r.1.length = src.length ∧ r.2.length = src.length ∧
        Merged view.data view.logicalLen segs.flatten (r.1.take segs.flatten.length) := by
  induction fuel generalizing segs src dst with
  | zero =>
      rw [mergePasses, List.length_map, if_neg (by omega)]
      refine Returns.pure ⟨rfl, hdst.symm, ?_⟩
      rw [hsrc]
      exact hsegs.merged_of_length_le_one (by omega)
  | succ fuel ih =>
      rw [mergePasses, List.length_map]
      split
      · rename_i hmany
        refine Returns.bind (mergePass_returns hlen segs 0 dst hsegs (by omega) hdst
          (by rwa [← take_eq_slice])) ?_
        rintro ⟨lengths, dst'⟩ ⟨segs', hpassed⟩
        obtain ⟨rfl, hperm, hsorted, hcount, hlength, -, hwritten⟩ := hpassed
        dsimp only at hlength hwritten ⊢
        rw [← take_eq_slice, ← hperm.length_eq] at hwritten
        rw [← hperm.length_eq] at hfit ⊢
        refine (ih ⟨hsorted, hsegs.sameKey.permute hperm⟩ (by omega) (by omega) (by omega)
          hwritten).mono ?_
        rintro r ⟨hr, hr', hmerged⟩
        exact ⟨by omega, by omega, hmerged.perm.trans hperm, hmerged.sorted⟩
      · refine Returns.pure ⟨rfl, hdst.symm, ?_⟩
        rw [hsrc]
        exact hsegs.merged_of_length_le_one (by omega)

theorem mergeEqualKeyRunsAfterKey_returns (hlen : view.logicalLen + 3 ≤ view.data.length)
    {segs : List (List Nat)} {positions : List Nat} (mergePositions : List Nat)
    (hsegs : Segments view.data view.logicalLen key segs)
    (hfit : segs.flatten.length ≤ positions.length)
    (hpositions : positions.take segs.flatten.length = segs.flatten) :
    Returns (mergeEqualKeyRunsAfterKey view positions mergePositions (segs.map List.length))
      fun r => r.1.length = positions.length ∧
        (1 < segs.length → r.2.length = positions.length) ∧ Merged view.data view.logicalLen segs.flatten (r.1.take segs.flatten.length) := by
  rw [mergeEqualKeyRunsAfterKey, List.length_map]
  split
  · rename_i hone
    refine Returns.pure ⟨rfl, fun hmany => absurd hone (Nat.not_le.mpr hmany), ?_⟩
    rw [hpositions]
    exact hsegs.merged_of_length_le_one hone
  · refine (mergePasses_returns hlen segs.length hsegs le_rfl hfit (resize_length _ _ _).symm
      hpositions).mono ?_
    rintro r ⟨hr, hr', hmerged⟩
    exact ⟨hr, fun _ => hr', hmerged⟩

end Passes

section Buffers

/-- The comparison after a key sees the text only. -/
theorem suffixLessAfterKey_congr {view view' : Stage5View} {n : Nat}
    (hlen : n ≤ view.data.length) (hlen' : n ≤ view'.data.length) (hn : view.logicalLen = n)
    (hn' : view'.logicalLen = n) (htext : view'.data.take n = view.data.take n) :
    suffixLessAfterKey view' = suffixLessAfterKey view := by
  obtain ⟨n, data⟩ := view
  obtain ⟨n', data'⟩ := view'
  obtain rfl : n = _ := hn
  obtain rfl : n' = n := hn'
  have hsuffix : ∀ p, suffix data' n' p = suffix data n' p := by
    intro p
    rw [suffix, suffix, textOf, textOf, htext]
  funext a b
  have hcompare : compareSuffixesAfterKey ⟨n', data'⟩ a b =
      compareSuffixesAfterKey ⟨n', data⟩ a b := by
    rcases eq_or_ne a b with rfl | hne
    · rw [compareSuffixesAfterKey, compareSuffixesAfterKey, if_pos rfl, if_pos rfl]
    by_cases hbound : a ≤ n' ∧ b ≤ n'
    · rw [compareSuffixesAfterKey_eq hlen' hbound.1 hbound.2 hne,
        compareSuffixesAfterKey_eq hlen hbound.1 hbound.2 hne, hsuffix, hsuffix]
    · rw [compareSuffixesAfterKey, compareSuffixesAfterKey, if_neg hne, if_neg hne,
        require_eq_none hbound]
      rfl
  rw [suffixLessAfterKey, suffixLessAfterKey, hcompare]

theorem mergePass_congr {view view' : Stage5View}
    (h : suffixLessAfterKey view' = suffixLessAfterKey view) (src : List Nat)
    (runLengths : List Nat) (base : Nat) (dst : List Nat) :
    mergePass view' src runLengths base dst = mergePass view src runLengths base dst := by
  fun_induction mergePass view src runLengths base dst with
  | case1 base dst => rfl
  | case2 leftLen base dst => rfl
  | case3 leftLen rightLen runLengths base dst ih =>
      rw [mergePass, h]
      simp only [ih]

theorem mergePasses_congr {view view' : Stage5View}
    (h : suffixLessAfterKey view' = suffixLessAfterKey view) (fuel : Nat)
    (runLengths src dst : List Nat) :
    mergePasses view' fuel runLengths src dst = mergePasses view fuel runLengths src dst := by
  induction fuel generalizing runLengths src dst with
  | zero => rfl
  | succ fuel ih =>
      rw [mergePasses, mergePasses]
      simp only [mergePass_congr h, ih]

theorem mergeEqualKeyRunsAfterKey_congr {view view' : Stage5View}
    (h : suffixLessAfterKey view' = suffixLessAfterKey view)
    (positions mergePositions runLengths : List Nat) :
    mergeEqualKeyRunsAfterKey view' positions mergePositions runLengths =
      mergeEqualKeyRunsAfterKey view positions mergePositions runLengths := by
  rw [mergeEqualKeyRunsAfterKey, mergeEqualKeyRunsAfterKey, mergePasses_congr h]

/-- The text with zeros behind it. -/
def padded (view : Stage5View) : Stage5View :=
  { view with data := view.data.take view.logicalLen ++ [0, 0, 0] }

variable {view : Stage5View}

theorem padded_take (hlen : view.logicalLen ≤ view.data.length) :
    (padded view).data.take view.logicalLen = view.data.take view.logicalLen := by
  rw [padded, List.take_append_of_le_length (by rw [List.length_take]; omega), List.take_take,
    min_self]

theorem padded_length (hlen : view.logicalLen ≤ view.data.length) :
    (padded view).data.length = view.logicalLen + 3 := by
  rw [padded, List.length_append, List.length_take, min_eq_left hlen]
  rfl

theorem padded_zeroTail (hlen : view.logicalLen ≤ view.data.length) :
    ZeroTail (padded view).data view.logicalLen := by
  have hlength : (view.data.take view.logicalLen).length = view.logicalLen := by
    rw [List.length_take, min_eq_left hlen]
  have hdrop : (padded view).data.drop view.logicalLen = [0, 0, 0] := by
    change (view.data.take view.logicalLen ++ [0, 0, 0]).drop view.logicalLen = [0, 0, 0]
    conv_lhs => rw [← hlength]
    rw [hlength, List.drop_left' hlength]
  rw [ZeroTail, slice, hdrop]
  rfl

theorem padded_suffix (hlen : view.logicalLen ≤ view.data.length) (p : Nat) :
    suffix (padded view).data view.logicalLen p = suffix view.data view.logicalLen p := by
  rw [suffix, suffix, textOf, textOf, padded_take hlen]

theorem padded_less (hlen : view.logicalLen ≤ view.data.length) :
    suffixLessAfterKey (padded view) = suffixLessAfterKey view := by
  have hlength := padded_length hlen
  exact suffixLessAfterKey_congr hlen (by omega) rfl rfl (padded_take hlen)

/-- Positions with one key have one key in the text with zeros behind it. -/
theorem padded_orderKeyAt (hlen : view.logicalLen ≤ view.data.length) {p q : Nat}
    (hp : p < view.logicalLen) (hq : q < view.logicalLen)
    (h : textKey view.data view.logicalLen p = textKey view.data view.logicalLen q) :
    orderKeyAt (padded view).data p = orderKeyAt (padded view).data q := by
  have hlength := padded_length hlen
  refine orderKeyAt_eq_of_keyAt (by omega) (by omega) ?_
  rw [← load24Padded_eq (by omega), ← load24Padded_eq (by omega), padded, load24Padded_zeros,
    load24Padded_zeros]
  exact h

/-- The vectors of run lengths are no input of the merge but the lengths themselves. -/
theorem mergeRounds_eq (fuel : Nat) {runLengths src dst src' dst' : List Nat}
    (h : mergePasses view fuel runLengths src dst = some (src', dst'))
    (nextRunLengths : List Nat) :
    ∃ runLengths' nextRunLengths',
      mergeRounds view fuel runLengths nextRunLengths src dst =
        some (src', dst', runLengths', nextRunLengths') := by
  induction fuel generalizing runLengths nextRunLengths src dst with
  | zero =>
      rw [mergePasses] at h
      rw [mergeRounds]
      split at h
      · cases h
      · rename_i hone
        cases h
        exact ⟨runLengths, nextRunLengths, if_neg hone⟩
  | succ fuel ih =>
      rw [mergePasses] at h
      rw [mergeRounds]
      split at h
      · rename_i hmany
        obtain ⟨⟨pushed, dst''⟩, hpass, h⟩ := Option.bind_eq_some_iff.mp h
        rw [if_pos hmany, hpass]
        simp only [Option.bind_eq_bind, Option.bind_some, List.take_zero, List.nil_append]
        exact ih h runLengths
      · rename_i hone
        cases h
        exact ⟨runLengths, nextRunLengths, if_neg hone⟩

theorem mergeEqualKeyRuns_eq {positions mergePositions runLengths : List Nat}
    {r : List Nat × List Nat}
    (h : mergeEqualKeyRunsAfterKey view positions mergePositions runLengths = some r)
    (nextRunLengths : List Nat) :
    ∃ runLengths' nextRunLengths',
      mergeEqualKeyRuns view positions mergePositions runLengths nextRunLengths =
        some (r.1, r.2, runLengths', nextRunLengths') := by
  rw [mergeEqualKeyRunsAfterKey] at h
  rw [mergeEqualKeyRuns]
  split at h
  · rename_i hone
    cases h
    exact ⟨runLengths, nextRunLengths, if_pos hone⟩
  · rename_i hmany
    rw [if_neg hmany]
    exact mergeRounds_eq _ h nextRunLengths

/-- The first positions, cut at the run lengths. -/
def runsOf (runLengths positions : List Nat) : List (List Nat) :=
  runLengths.splitLengths (positions.take runLengths.sum)

/-- `merge_equal_key_runs_after_key` leaves the first positions sorted, whatever the other buffers
hold. -/
theorem equalKeyMerge_sorts {view : Stage5View} (hlen : view.logicalLen ≤ view.data.length)
    {runLengths positions : List Nat} (hfit : runLengths.sum ≤ positions.length)
    (hbound : ∀ p ∈ positions.take runLengths.sum, p < view.logicalLen)
    (hnodup : (positions.take runLengths.sum).Nodup)
    (hkey : ∀ p ∈ positions.take runLengths.sum, ∀ q ∈ positions.take runLengths.sum,
      textKey view.data view.logicalLen p = textKey view.data view.logicalLen q)
    (hsorted : ∀ run ∈ runsOf runLengths positions, run.Pairwise fun p q =>
      suffix view.data view.logicalLen p < suffix view.data view.logicalLen q)
    (mergePositions nextRunLengths : List Nat) :
    ∃ positions' mergePositions' runLengths' nextRunLengths',
      mergeEqualKeyRuns view positions mergePositions runLengths nextRunLengths =
        some (positions', mergePositions', runLengths', nextRunLengths') ∧
      (positions'.take runLengths.sum).Perm (positions.take runLengths.sum) ∧
      ((positions'.take runLengths.sum).Pairwise fun p q =>
        suffix view.data view.logicalLen p < suffix view.data view.logicalLen q) ∧
      (1 < runLengths.length → positions'.length = mergePositions'.length) := by
  have hzero := padded_zeroTail hlen
  have htotal : (positions.take runLengths.sum).length = runLengths.sum := by
    rw [List.length_take, min_eq_left hfit]
  have hflatten : (runsOf runLengths positions).flatten = positions.take runLengths.sum :=
    List.flatten_splitLengths _ _ htotal.le
  have hlengths : (runsOf runLengths positions).map List.length = runLengths :=
    List.map_splitLengths_length _ _ htotal.ge
  have hbehind : ∀ p q, Behind (padded view).data view.logicalLen p q ↔
      suffix view.data view.logicalLen p < suffix view.data view.logicalLen q := by
    intro p q
    rw [Behind, padded_suffix hlen, padded_suffix hlen]
    exact ⟨fun h => h hzero, fun h _ => h⟩
  obtain ⟨key, hkeys⟩ : ∃ key, ∀ p ∈ positions.take runLengths.sum,
      orderKeyAt (padded view).data p = key := by
    cases hfront : positions.take runLengths.sum with
    | nil => exact ⟨0, by simp⟩
    | cons q _ =>
        have hq : q ∈ positions.take runLengths.sum := by rw [hfront]; exact List.mem_cons_self
        rw [← hfront]
        exact ⟨_, fun p hp => padded_orderKeyAt hlen (hbound p hp) (hbound q hq) (hkey p hp q hq)⟩
  have hsegs : Segments (padded view).data (padded view).logicalLen key
      (runsOf runLengths positions) := by
    refine ⟨?_, ?_⟩
    · intro run hrun
      exact (hsorted run hrun).imp fun h => (hbehind _ _).mpr h
    · rw [hflatten]
      exact ⟨hbound, hkeys, hnodup⟩
  have hfit' : (runsOf runLengths positions).flatten.length ≤ positions.length := by
    rwa [hflatten, htotal]
  have hfront : positions.take (runsOf runLengths positions).flatten.length =
      (runsOf runLengths positions).flatten := by
    rw [hflatten, htotal]
  obtain ⟨r, hr, hsize, hsizes, hmerged⟩ := mergeEqualKeyRunsAfterKey_returns
    (padded_length hlen).ge mergePositions hsegs hfit' hfront
  rw [hflatten, htotal] at hmerged
  rw [hlengths, mergeEqualKeyRunsAfterKey_congr (padded_less hlen)] at hr
  obtain ⟨runLengths', nextRunLengths', hrun⟩ := mergeEqualKeyRuns_eq hr nextRunLengths
  refine ⟨r.1, r.2, runLengths', nextRunLengths', hrun, hmerged.perm, ?_, ?_⟩
  · exact hmerged.sorted.imp fun h => (hbehind _ _).mp h
  · intro hmany
    rw [← hlengths, List.length_map] at hmany
    rw [hsize, hsizes hmany]

/-- Three runs of one position each, with stale entries in all buffers. -/
theorem equalKeyMerge_sorts_aaaaa :
    ∃ positions' mergePositions' runLengths' nextRunLengths',
      mergeEqualKeyRuns { logicalLen := 5, data := [97, 97, 97, 97, 97] } [0, 1, 2, 7] [4]
          [1, 1, 1] [9, 9] =
        some (positions', mergePositions', runLengths', nextRunLengths') ∧
      (positions'.take 3).Perm [0, 1, 2] ∧
      ((positions'.take 3).Pairwise fun p q =>
        suffix [97, 97, 97, 97, 97] 5 p < suffix [97, 97, 97, 97, 97] 5 q) ∧
      (1 < [1, 1, 1].length → positions'.length = mergePositions'.length) :=
  @equalKeyMerge_sorts { logicalLen := 5, data := [97, 97, 97, 97, 97] } (by decide) [1, 1, 1]
    [0, 1, 2, 7] (by decide) (by decide) (by decide) (by decide) (by decide) [4] [9, 9]

end Buffers

end DirtybirdMiner.V114.Merging
