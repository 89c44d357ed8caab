import Mathlib.Algebra.BigOperators.Group.List.Basic
import DirtybirdMiner.Lib.Stable
import DirtybirdMiner.V114.Order

/-!
Runs of positions: how a run is packed, what the emitters promise about the runs
they leave, and the radix sort of the runs by their keys.
-/

namespace DirtybirdMiner.V114.Runs

open DirtybirdMiner.Lib.Bytes
open DirtybirdMiner.Lib.Checked
open DirtybirdMiner.Lib.Buffers
open DirtybirdMiner.Lib.Sorting
open DirtybirdMiner.Lib.Stable (eq_insertionSort)
open DirtybirdMiner.V114.Model
open DirtybirdMiner.V114.Order

section Packing

theorem begin_eq_mod (run : Stage5Run) : stage5RunBegin run = run.packed % 2 ^ 17 := by
  rw [stage5RunBegin, show 0x1ffff = 2 ^ 17 - 1 by rfl, Nat.and_two_pow_sub_one_eq_mod]

theorem encodedCount_eq_div (run : Stage5Run) :
    stage5RunEncodedCount run = run.packed / 2 ^ 17 := by
  rw [stage5RunEncodedCount, Nat.shiftRight_eq_div_pow]

theorem count_pos (run : Stage5Run) : 0 < stage5RunCount run := by
  rw [stage5RunCount]
  split <;> omega

theorem makeStage5Run_literal (key : Nat) {start : Nat} (count : Nat) (h : start < 2 ^ 17) :
    stage5RunIsLiteral (makeStage5Run key start count true) = true ∧
      stage5RunBegin (makeStage5Run key start count true) = start ∧
      stage5RunCount (makeStage5Run key start count true) = 1 := by
  have henc : stage5RunEncodedCount (makeStage5Run key start count true) = 0 := by
    rw [encodedCount_eq_div, makeStage5Run]
    exact Nat.div_eq_of_lt h
  refine ⟨?_, ?_, ?_⟩
  · rw [stage5RunIsLiteral, henc, decide_eq_true rfl]
  · rw [begin_eq_mod, makeStage5Run]
    exact Nat.mod_eq_of_lt h
  · rw [stage5RunCount, if_pos henc]

theorem makeStage5Run_arena (key : Nat) {start count : Nat} (h : start < 2 ^ 17)
    (hcount : 0 < count) :
    stage5RunIsLiteral (makeStage5Run key start count false) = false ∧
      stage5RunBegin (makeStage5Run key start count false) = start ∧
      stage5RunCount (makeStage5Run key start count false) = count := by
  have hpacked : (makeStage5Run key start count false).packed = count * 2 ^ 17 + start := by
    rw [makeStage5Run, if_neg (by decide), Nat.shiftLeft_eq]
  have henc : stage5RunEncodedCount (makeStage5Run key start count false) = count := by
    rw [encodedCount_eq_div, hpacked]
    omega
  refine ⟨?_, ?_, ?_⟩
  · rw [stage5RunIsLiteral, henc, decide_eq_false (by omega)]
  · rw [begin_eq_mod, hpacked]
    omega
  · rw [stage5RunCount, henc, if_neg (by omega)]

end Packing

section Positions

/-- The positions of a run over an arena that holds it. -/
def runPositions (arena : List Nat) (run : Stage5Run) : List Nat :=
  if stage5RunIsLiteral run then [stage5RunBegin run]
  else slice arena (stage5RunBegin run) (stage5RunCount run)

/-- The run lies in the arena. -/
def InArena (arena : List Nat) (run : Stage5Run) : Prop :=
  stage5RunIsLiteral run = true ∨ stage5RunBegin run + stage5RunCount run ≤ arena.length

theorem fusedRunPositions_eq {arena : List Nat} {run : Stage5Run} (h : InArena arena run) :
    fusedRunPositions arena run = some (runPositions arena run) := by
  rw [fusedRunPositions, runPositions]
  split
  · rfl
  · rename_i hlit
    exact readAt_eq_some (h.resolve_left hlit)

theorem runPositions_length {arena : List Nat} {run : Stage5Run} (h : InArena arena run) :
    (runPositions arena run).length = stage5RunCount run := by
  rw [runPositions]
  split
  · rename_i hlit
    rw [stage5RunIsLiteral, decide_eq_true_eq] at hlit
    rw [stage5RunCount, if_pos hlit, List.length_singleton]
  · rename_i hlit
    exact slice_length (h.resolve_left hlit)

theorem InArena.append {arena : List Nat} {run : Stage5Run} (h : InArena arena run)
    (more : List Nat) : InArena (arena ++ more) run := by
  rcases h with h | h
  · exact .inl h
  · exact .inr (by rw [List.length_append]; omega)

/-- Positions that were emitted stay when the arena grows. -/
theorem runPositions_append {arena : List Nat} {run : Stage5Run} (h : InArena arena run)
    (more : List Nat) : runPositions (arena ++ more) run = runPositions arena run := by
  rw [runPositions, runPositions]
  split
  · rfl
  · rename_i hlit
    have hin := h.resolve_left hlit
    rw [slice, slice, List.drop_append_of_le_length (by omega),
      List.take_append_of_le_length (by rw [List.length_drop]; omega)]

end Positions

/-- Positions that may share a run: they have one key and increasing suffixes. -/
structure RunOf (data : List UInt8) (n key : Nat) (positions : List Nat) : Prop where
  bound : ∀ p ∈ positions, p < n
  key : ∀ p ∈ positions, orderKeyAt data p = key
  sorted : positions.Pairwise fun p q => suffix data n p < suffix data n q

/-- What the emitters leave: runs over the arena whose positions are, in some
order, the positions emitted. -/
structure Emitted (data : List UInt8) (n : Nat) (arena : List Nat) (runs : List Stage5Run)
    (positions : List Nat) : Prop where
  inArena : ∀ run ∈ runs, InArena arena run
  runOf : ∀ run ∈ runs, RunOf data n run.key (runPositions arena run)
  perm : (runs.flatMap (runPositions arena)).Perm positions

section Emission

variable {data : List UInt8} {n : Nat} {arena : List Nat} {runs : List Stage5Run}
  {positions : List Nat}

theorem Emitted.nil : Emitted data n [] [] [] where
  inArena := by simp
  runOf := by simp
  perm := List.Perm.refl _

theorem Emitted.permute {positions' : List Nat} (h : Emitted data n arena runs positions)
    (hperm : positions.Perm positions') : Emitted data n arena runs positions' where
  inArena := h.inArena
  runOf := h.runOf
  perm := h.perm.trans hperm

theorem Emitted.extend (h : Emitted data n arena runs positions) (more : List Nat) :
    Emitted data n (arena ++ more) runs positions where
  inArena := fun run hrun => (h.inArena run hrun).append more
  runOf := by
    intro run hrun
    rw [runPositions_append (h.inArena run hrun)]
    exact h.runOf run hrun
  perm := by
    rw [List.flatMap_def, List.map_congr_left fun run hrun =>
      runPositions_append (h.inArena run hrun) more, ← List.flatMap_def]
    exact h.perm

/-- One more run, after the arena has grown. -/
theorem Emitted.push (h : Emitted data n arena runs positions) (more : List Nat) {run : Stage5Run}
    {group : List Nat} (hin : InArena (arena ++ more) run)
    (hgroup : runPositions (arena ++ more) run = group) (hrun : RunOf data n run.key group) :
    Emitted data n (arena ++ more) (runs ++ [run]) (positions ++ group) where
  inArena := by
    intro r hr
    rcases List.mem_append.mp hr with hr | hr
    · exact (h.inArena r hr).append more
    · rwa [List.mem_singleton.mp hr]
  runOf := by
    intro r hr
    rcases List.mem_append.mp hr with hr | hr
    · rw [runPositions_append (h.inArena r hr)]
      exact h.runOf r hr
    · rwa [List.mem_singleton.mp hr, hgroup]
  perm := by
    have hsame : runs.flatMap (runPositions (arena ++ more)) = runs.flatMap (runPositions arena) := by
      rw [List.flatMap_def, List.flatMap_def]
      congr 1
      apply List.map_congr_left
      intro r hr
      exact runPositions_append (h.inArena r hr) more
    rw [List.flatMap_append, List.flatMap_singleton, hgroup, hsame]
    exact h.perm.append_right group

theorem Emitted.pushLiteral (h : Emitted data n arena runs positions) {key pos : Nat} (count : Nat)
    (hpos : pos < 2 ^ 17) (hrun : RunOf data n key [pos]) :
    Emitted data n arena (runs ++ [makeStage5Run key pos count true]) (positions ++ [pos]) := by
  obtain ⟨hlit, hbegin, -⟩ := makeStage5Run_literal key count hpos
  have hpush : Emitted data n (arena ++ []) (runs ++ [makeStage5Run key pos count true])
      (positions ++ [pos]) :=
    h.push [] (.inl hlit) (by rw [runPositions, if_pos hlit, hbegin]) hrun
  rwa [List.append_nil] at hpush

theorem Emitted.pushArena (h : Emitted data n arena runs positions) {key : Nat} {group : List Nat}
    (hstart : arena.length < 2 ^ 17) (hne : 0 < group.length) (hrun : RunOf data n key group) :
    Emitted data n (arena ++ group)
      (runs ++ [makeStage5Run key arena.length group.length false]) (positions ++ group) := by
  obtain ⟨hlit, hbegin, hcount⟩ := makeStage5Run_arena key hstart hne
  refine h.push group (.inr ?_) ?_ hrun
  · rw [hbegin, hcount, List.length_append]
  · rw [runPositions, if_neg (by rw [hlit]; decide), hbegin, hcount, slice, List.drop_left,
      List.take_length]

/-- The counts of the runs add up to the number of positions. -/
theorem Emitted.sum_counts (h : Emitted data n arena runs positions) :
    (runs.map stage5RunCount).sum = positions.length := by
  rw [← h.perm.length_eq, List.length_flatMap]
  congr 1
  apply List.map_congr_left
  intro run hrun
  rw [runPositions_length (h.inArena run hrun)]

theorem Emitted.length_le (h : Emitted data n arena runs positions) :
    runs.length ≤ positions.length := by
  rw [← h.sum_counts]
  have hle := List.length_le_sum_of_one_le (runs.map stage5RunCount) (by
    intro c hc
    obtain ⟨run, -, rfl⟩ := List.mem_map.mp hc
    exact count_pos run)
  rwa [List.length_map] at hle

theorem Emitted.key_lt (h : Emitted data n arena runs positions) (hlen : n + 3 ≤ data.length)
    {run : Stage5Run} (hrun : run ∈ runs) : run.key < 2 ^ 24 := by
  have hpos : 0 < (runPositions arena run).length := by
    rw [runPositions_length (h.inArena run hrun)]
    exact count_pos run
  obtain ⟨p, hp⟩ := List.exists_mem_of_length_pos hpos
  have hbound := (h.runOf run hrun).bound p hp
  rw [← (h.runOf run hrun).key p hp]
  exact orderKeyAt_lt (by omega)

end Emission

section Radix

/-- The histograms of the three bytes of the keys. -/
def countsOf (runs : List Stage5Run) : RadixCounts where
  pass0 := histogram (radixDigit 0) 256 runs
  pass1 := histogram (radixDigit 1) 256 runs
  pass2 := histogram (radixDigit 2) 256 runs

theorem countsOf_nil : countsOf [] = RadixCounts.zero := by
  have hzero : ∀ digit : Stage5Run → Nat, histogram digit 256 [] = List.replicate 256 0 := by
    intro digit
    rw [histogram]
    simp only [List.countP_nil, List.map_const', List.length_range]
  rw [countsOf, hzero, hzero, hzero, RadixCounts.zero]

theorem countsOf_concat (runs : List Stage5Run) (run : Stage5Run) :
    countsOf (runs ++ [run]) = countRadixKey (countsOf runs) run := by
  simp only [countsOf, countRadixKey, histogram_concat]

theorem foldl_countRadixKey (runs : List Stage5Run) :
    runs.foldl countRadixKey RadixCounts.zero = countsOf runs := by
  suffices h : ∀ todo done, todo.foldl countRadixKey (countsOf done) = countsOf (done ++ todo) by
    have hall := h runs []
    rwa [countsOf_nil] at hall
  intro todo
  induction todo with
  | nil => intro done; simp
  | cons run todo ih =>
      intro done
      rw [List.foldl_cons, ← countsOf_concat, ih, List.append_assoc, List.singleton_append]

theorem radixDigit_eq (pass : Nat) (run : Stage5Run) :
    radixDigit pass run = run.key / 2 ^ (8 * pass) % 256 := by
  rw [radixDigit, Nat.shiftRight_eq_div_pow, show 0xff = 2 ^ 8 - 1 by rfl,
    Nat.and_two_pow_sub_one_eq_mod]

theorem radixDigit_lt (pass : Nat) (run : Stage5Run) : radixDigit pass run < 256 := by
  rw [radixDigit_eq]
  exact Nat.mod_lt _ (by decide)

theorem pairwise_of_length_le_one {α : Type} {R : α → α → Prop} {items : List α}
    (h : items.length ≤ 1) : items.Pairwise R := by
  match items, h with
  | [], _ => exact List.Pairwise.nil
  | [x], _ => exact List.pairwise_singleton R x

theorem radixPass_returns {pass n : Nat} {src dst : List Stage5Run} (hsrc : n ≤ src.length)
    (hdst : n ≤ dst.length) :
    Returns (radixPass pass src dst n (histogram (radixDigit pass) 256 (src.take n))) fun r =>
      r = bucketed (radixDigit pass) 256 (src.take n) ++ dst.drop n := by
  rw [radixPass, readAt_eq_some (by omega), ← take_eq_slice]
  have hlen : (src.take n).length = n := by simp [hsrc]
  simp only [Option.bind_eq_bind, Option.bind_some]
  refine Returns.bind (scatter_returns (fun y _ => radixDigit_lt pass y) (by rwa [hlen])) ?_
  rintro ⟨slots, r⟩ hr
  dsimp only at hr
  rw [hlen] at hr
  exact Returns.pure hr

theorem bucketed_radix_perm (pass : Nat) (items : List Stage5Run) :
    (bucketed (radixDigit pass) 256 items).Perm items :=
  bucketed_perm fun run _ => radixDigit_lt pass run

/-- Sorting by the bytes of the keys, lowest first, sorts by the keys. -/
theorem bucketed_three_sorted {items : List Stage5Run} (hkeys : ∀ run ∈ items, run.key < 2 ^ 24) :
    (bucketed (radixDigit 2) 256 (bucketed (radixDigit 1) 256
      (bucketed (radixDigit 0) 256 items))).Pairwise fun a b => a.key ≤ b.key := by
  have hany : items.Pairwise fun _ _ => True := List.pairwise_of_forall fun _ _ => trivial
  have hsorted := bucketed_pairwise (radixDigit 2) 256
    (bucketed_pairwise (radixDigit 1) 256 (bucketed_pairwise (radixDigit 0) 256 hany))
  refine List.Pairwise.imp_of_mem ?_ hsorted
  intro a b ha hb h
  have hmem : ∀ r ∈ bucketed (radixDigit 2) 256 (bucketed (radixDigit 1) 256
      (bucketed (radixDigit 0) 256 items)), r.key < 2 ^ 24 := by
    intro r hr
    apply hkeys r
    rwa [(bucketed_radix_perm 2 _).mem_iff, (bucketed_radix_perm 1 _).mem_iff,
      (bucketed_radix_perm 0 _).mem_iff] at hr
  have hka := hmem a ha
  have hkb := hmem b hb
  simp only [radixDigit_eq] at h
  omega

/-- The three passes of the sort. -/
def bucketedThree (items : List Stage5Run) : List Stage5Run :=
  bucketed (radixDigit 2) 256 (bucketed (radixDigit 1) 256 (bucketed (radixDigit 0) 256 items))

theorem bucketedThree_perm (items : List Stage5Run) : (bucketedThree items).Perm items :=
  (bucketed_radix_perm 2 _).trans ((bucketed_radix_perm 1 _).trans (bucketed_radix_perm 0 _))

/-- The counts of a pass are those of any order of the runs. -/
theorem radixPass_eq {pass n : Nat} {src dst items : List Stage5Run} (hsrc : n ≤ src.length)
    (hdst : n ≤ dst.length) (hperm : (src.take n).Perm items) :
    radixPass pass src dst n (histogram (radixDigit pass) 256 items) =
      some (bucketed (radixDigit pass) 256 (src.take n) ++ dst.drop n) := by
  obtain ⟨r, hr, rfl⟩ := @radixPass_returns pass n src dst hsrc hdst
  rw [← histogram_perm hperm, hr]

/-- What the sort leaves in the two vectors. -/
theorem radixSortRunsByStoredKeyPrefixCounted_eq {runs tmp : List Stage5Run} {n : Nat}
    (hn : 1 < n) (hruns : n ≤ runs.length) (htmp : n ≤ tmp.length) :
    radixSortRunsByStoredKeyPrefixCounted runs tmp n (countsOf (runs.take n)) =
      some (bucketedThree (runs.take n) ++ tmp.drop n,
        bucketed (radixDigit 1) 256 (bucketed (radixDigit 0) 256 (runs.take n)) ++
          runs.drop n) := by
  have hlen : (runs.take n).length = n := by simp [hruns]
  have hperm0 := bucketed_radix_perm 0 (runs.take n)
  have hperm1 := (bucketed_radix_perm 1 (bucketed (radixDigit 0) 256 (runs.take n))).trans hperm0
  have htake : ∀ (items rest : List Stage5Run), items.Perm (runs.take n) →
      (items ++ rest).take n = items := by
    intro items rest hitems
    rw [← hlen, ← hitems.length_eq, List.take_left]
  have hroom : ∀ (items rest : List Stage5Run), items.Perm (runs.take n) →
      n ≤ (items ++ rest).length := by
    intro items rest hitems
    rw [List.length_append, hitems.length_eq, hlen]
    exact Nat.le_add_right n _
  have hdrop : ∀ (items rest : List Stage5Run), items.Perm (runs.take n) →
      (items ++ rest).drop n = rest := by
    intro items rest hitems
    rw [← hlen, ← hitems.length_eq, List.drop_left]
  have hpass0 := @radixPass_eq 0 n runs tmp _ hruns htmp (List.Perm.refl _)
  have hpass1 := @radixPass_eq 1 n _ runs (runs.take n) (hroom _ (tmp.drop n) hperm0) hruns
    (by rwa [htake _ _ hperm0])
  rw [htake _ _ hperm0] at hpass1
  have hpass2 := @radixPass_eq 2 n _ _ (runs.take n) (hroom _ (runs.drop n) hperm1)
    (hroom _ (tmp.drop n) hperm0) (by rwa [htake _ _ hperm1])
  rw [htake _ _ hperm1, hdrop _ _ hperm0] at hpass2
  rw [radixSortRunsByStoredKeyPrefixCounted, if_neg (by omega)]
  simp only [countsOf, hpass0, hpass1, hpass2, Option.bind_eq_bind, Option.bind_some]
  rfl

/-- The runs of a prefix come out sorted by key. -/
theorem radixSortRunsByStoredKeyPrefixCounted_returns {runs tmp : List Stage5Run} {n : Nat}
    (hruns : n ≤ runs.length) (htmp : n ≤ tmp.length)
    (hkeys : ∀ run ∈ runs.take n, run.key < 2 ^ 24) :
    Returns (radixSortRunsByStoredKeyPrefixCounted runs tmp n (countsOf (runs.take n))) fun r =>
      (r.1.take n).Perm (runs.take n) ∧ (r.1.take n).Pairwise fun a b => a.key ≤ b.key := by
  rcases Nat.lt_or_ge 1 n with hn | hn
  · have hlen : (bucketedThree (runs.take n)).length = n := by
      rw [(bucketedThree_perm _).length_eq, List.length_take, Nat.min_eq_left hruns]
    refine .of_eq (radixSortRunsByStoredKeyPrefixCounted_eq hn hruns htmp) ?_
    dsimp only
    rw [List.take_append_of_le_length hlen.ge, List.take_of_length_le hlen.le]
    exact ⟨bucketedThree_perm _, bucketed_three_sorted hkeys⟩
  · rw [radixSortRunsByStoredKeyPrefixCounted, if_pos hn]
    exact Returns.pure ⟨List.Perm.refl _, pairwise_of_length_le_one (by simp; omega)⟩

/-- The wrapper keeps the sorted prefix alone. -/
theorem radixSortRunsByStoredKey_eq {runs : List Stage5Run} (hn : 1 < runs.length)
    (tmp : List Stage5Run) :
    ∃ tmp', radixSortRunsByStoredKey runs tmp = some (bucketedThree runs, tmp') := by
  have htmp : runs.length ≤
      (if tmp.length < runs.length then resize tmp runs.length Stage5Run.zero else tmp).length := by
    split
    · rw [resize_length]
    · omega
  have hsort := radixSortRunsByStoredKeyPrefixCounted_eq hn le_rfl htmp
  rw [List.take_length] at hsort
  refine ⟨bucketed (radixDigit 1) 256 (bucketed (radixDigit 0) 256 runs) ++
    runs.drop runs.length, ?_⟩
  rw [radixSortRunsByStoredKey, if_neg (by omega)]
  simp only [radixSortRunsByStoredKeyPrefix,
    readAt_eq_some (show 0 + runs.length ≤ runs.length by omega), ← take_eq_slice,
    List.take_length, Option.bind_eq_bind, Option.bind_some, foldl_countRadixKey, hsort]
  rw [← (bucketedThree_perm runs).length_eq, List.take_left]

theorem radixSortRunsByStoredKey_returns {runs tmp : List Stage5Run}
    (hkeys : ∀ run ∈ runs, run.key < 2 ^ 24) :
    Returns (radixSortRunsByStoredKey runs tmp) fun r =>
      r.1.Perm runs ∧ r.1.Pairwise fun a b => a.key ≤ b.key := by
  rcases Nat.lt_or_ge 1 runs.length with hn | hn
  · obtain ⟨tmp', hsort⟩ := radixSortRunsByStoredKey_eq hn tmp
    exact .of_eq hsort ⟨bucketedThree_perm runs, bucketed_three_sorted hkeys⟩
  · rw [radixSortRunsByStoredKey, if_pos hn]
    exact Returns.pure ⟨List.Perm.refl _, pairwise_of_length_le_one hn⟩

/-- The three passes keep the order of runs with the same key. -/
theorem bucketedThree_stable {items : List Stage5Run} (hkeys : ∀ run ∈ items, run.key < 2 ^ 24) :
    bucketedThree items = items.insertionSort fun a b => a.key ≤ b.key := by
  refine eq_insertionSort (bucketed_three_sorted hkeys) ?_
  intro k
  have hdigit : ∀ pass, ∀ run : Stage5Run, decide (run.key = k) = true →
      radixDigit pass run = k / 2 ^ (8 * pass) % 256 := by
    intro pass run hrun
    rw [radixDigit_eq, of_decide_eq_true hrun]
  have hlt : ∀ pass, k / 2 ^ (8 * pass) % 256 < 256 := fun pass => Nat.mod_lt _ (by decide)
  rw [bucketedThree, filter_bucketed (hlt 2) fun run _ => hdigit 2 run,
    filter_bucketed (hlt 1) fun run _ => hdigit 1 run,
    filter_bucketed (hlt 0) fun run _ => hdigit 0 run]

/-- The slots that a pass writes to. -/
def passTargets (pass : Nat) (src : List Stage5Run) (n : Nat) (counts : List Nat) :
    Option (List Nat) := do
  let items ← readAt src 0 n
  scatterTargets (radixDigit pass) items (exclusiveSums 0 counts)

/-- The slots that `radix_sort_runs_by_stored_key_prefix_counted` writes to. -/
def radixTargets (runs tmp : List Stage5Run) (n : Nat) (counts : RadixCounts) :
    Option (List Nat) :=
  if n ≤ 1 then some []
  else do
    let targets0 ← passTargets 0 runs n counts.pass0
    let tmp ← radixPass 0 runs tmp n counts.pass0
    let targets1 ← passTargets 1 tmp n counts.pass1
    let runs ← radixPass 1 tmp runs n counts.pass1
    let targets2 ← passTargets 2 runs n counts.pass2
    some (targets0 ++ targets1 ++ targets2)

theorem passTargets_returns {n : Nat} {src items : List Stage5Run} (pass : Nat)
    (hsrc : n ≤ src.length) (hperm : (src.take n).Perm items) :
    Returns (passTargets pass src n (histogram (radixDigit pass) 256 items)) fun targets =>
      ∀ i ∈ targets, i < n := by
  have hlen : (src.take n).length = n := by rw [List.length_take, Nat.min_eq_left hsrc]
  obtain ⟨r, hr, -⟩ := @scatter_returns _ (radixDigit pass) 256 (src.take n) (src.take n)
    (fun run _ => radixDigit_lt pass run) le_rfl
  obtain ⟨targets, htargets, hlt⟩ := scatterTargets_lt hr
  rw [hlen] at hlt
  refine .of_eq ?_ hlt
  rw [passTargets, readAt_eq_some (by omega), ← take_eq_slice, ← histogram_perm hperm]
  exact htargets

/-- A pass leaves a permutation of the runs at the front. -/
theorem radixPass_perm {n : Nat} {src dst items : List Stage5Run} (pass : Nat)
    (hsrc : n ≤ src.length) (hdst : n ≤ dst.length) (hperm : (src.take n).Perm items) :
    Returns (radixPass pass src dst n (histogram (radixDigit pass) 256 items)) fun r =>
      n ≤ r.length ∧ (r.take n).Perm items := by
  have hlen : (bucketed (radixDigit pass) 256 (src.take n)).length = n := by
    rw [(bucketed_radix_perm pass _).length_eq, List.length_take, Nat.min_eq_left hsrc]
  refine .of_eq (radixPass_eq hsrc hdst hperm) ⟨?_, ?_⟩
  · rw [List.length_append]
    omega
  · rw [List.take_append_of_le_length hlen.ge, List.take_of_length_le hlen.le]
    exact (bucketed_radix_perm pass _).trans hperm

theorem radixTargets_returns {runs tmp : List Stage5Run} {n : Nat} (hruns : n ≤ runs.length)
    (htmp : n ≤ tmp.length) :
    Returns (radixTargets runs tmp n (countsOf (runs.take n))) fun targets =>
      ∀ i ∈ targets, i < n := by
  rw [radixTargets]
  split
  · exact Returns.pure (by simp)
  refine Returns.bind (passTargets_returns 0 hruns (List.Perm.refl _)) fun targets0 h0 => ?_
  refine Returns.bind (radixPass_perm 0 hruns htmp (List.Perm.refl _)) fun tmp' htmp' => ?_
  refine Returns.bind (passTargets_returns 1 htmp'.1 htmp'.2) fun targets1 h1 => ?_
  refine Returns.bind (radixPass_perm 1 htmp'.1 hruns htmp'.2) fun runs' hruns' => ?_
  refine Returns.bind (passTargets_returns 2 hruns'.1 hruns'.2) fun targets2 h2 => ?_
  apply Returns.pure
  intro i hi
  rw [List.mem_append, List.mem_append] at hi
  rcases hi with (hi | hi) | hi
  · exact h0 i hi
  · exact h1 i hi
  · exact h2 i hi

/-- The totals that the slots start from: words hold them if they hold the number of runs. -/
theorem exclusiveSums_le {items : List Stage5Run} {pass sum : Nat}
    (h : sum ∈ exclusiveSums 0 (histogram (radixDigit pass) 256 items)) : sum ≤ items.length := by
  obtain ⟨b, hb, rfl⟩ := List.mem_iff_getElem.mp h
  have hlength : (histogram (radixDigit pass) 256 items).length = 256 := by simp [histogram]
  rw [exclusiveSums_length, hlength] at hb
  have hget := exclusiveSums_getElem? (histogram (radixDigit pass) 256 items) 0 b
    (by rw [hlength]; exact hb)
  rw [histogram_sum_take items hb.le, Nat.zero_add, List.getElem?_eq_some_iff] at hget
  obtain ⟨_, hget⟩ := hget
  rw [hget, ← (bucketed_radix_perm pass items).length_eq]
  exact bucketed_length_mono items hb.le

end Radix

end DirtybirdMiner.V114.Runs
