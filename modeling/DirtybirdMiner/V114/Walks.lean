import DirtybirdMiner.V114.Builder
import DirtybirdMiner.V114.Merging

/-!
The walks over the sorted runs: groups of the same key are merged and handed on,
to the output buffer or to the hash, one after the other.
-/

namespace DirtybirdMiner.V114.Walks

open DirtybirdMiner.Lib.Bytes
open DirtybirdMiner.Lib.Checked
open DirtybirdMiner.Lib.Buffers
open DirtybirdMiner.Lib.Sorting
open DirtybirdMiner.V114.Model
open DirtybirdMiner.V114.Order
open DirtybirdMiner.V114.Runs
open DirtybirdMiner.V114.Merging

/-- Runs over an arena, sorted by key, that share no position. -/
structure Walk (data : List UInt8) (n : Nat) (arena : List Nat) (runs : List Stage5Run) :
    Prop where
  inArena : ∀ run ∈ runs, InArena arena run
  runOf : ∀ run ∈ runs, RunOf data n run.key (runPositions arena run)
  nodup : (runs.flatMap (runPositions arena)).Nodup
  keys : runs.Pairwise fun a b => a.key ≤ b.key

section Groups

variable {data : List UInt8} {n : Nat} {arena : List Nat}

/-- The runs that were emitted, sorted by key. -/
theorem Walk.of_emitted {runs sorted : List Stage5Run} {positions : List Nat}
    (h : Emitted data n arena runs positions)
    (hnodup : positions.Nodup) (hperm : sorted.Perm runs)
    (hkeys : sorted.Pairwise fun a b => a.key ≤ b.key) :
    Walk data n arena sorted ∧ (sorted.flatMap (runPositions arena)).Perm positions := by
  have hall : (sorted.flatMap (runPositions arena)).Perm positions :=
    (hperm.flatMap_right _).trans h.perm
  refine ⟨⟨?_, ?_, hall.nodup_iff.mpr hnodup, hkeys⟩, hall⟩
  · exact fun run hrun => h.inArena run (hperm.mem_iff.mp hrun)
  · exact fun run hrun => h.runOf run (hperm.mem_iff.mp hrun)

theorem Walk.left {runs runs' : List Stage5Run} (h : Walk data n arena (runs ++ runs')) :
    Walk data n arena runs where
  inArena := fun run hrun => h.inArena run (List.mem_append_left _ hrun)
  runOf := fun run hrun => h.runOf run (List.mem_append_left _ hrun)
  nodup := by
    have hnodup := h.nodup
    rw [List.flatMap_append] at hnodup
    exact hnodup.sublist (List.sublist_append_left _ _)
  keys := (List.pairwise_append.mp h.keys).1

theorem Walk.right {runs runs' : List Stage5Run} (h : Walk data n arena (runs ++ runs')) :
    Walk data n arena runs' where
  inArena := fun run hrun => h.inArena run (List.mem_append_right _ hrun)
  runOf := fun run hrun => h.runOf run (List.mem_append_right _ hrun)
  nodup := by
    have hnodup := h.nodup
    rw [List.flatMap_append] at hnodup
    exact hnodup.sublist (List.sublist_append_right _ _)
  keys := (List.pairwise_append.mp h.keys).2.1

/-- What a list of runs contributes to the total. -/
theorem Walk.length {runs : List Stage5Run} (h : Walk data n arena runs) :
    (runs.flatMap (runPositions arena)).length = (runs.map stage5RunCount).sum := by
  rw [List.length_flatMap]
  congr 1
  apply List.map_congr_left
  intro run hrun
  exact runPositions_length (h.inArena run hrun)

/-- Smaller keys come before larger ones. -/
theorem Walk.behind {runs runs' : List Stage5Run} (hlen : n + 3 ≤ data.length)
    (h : Walk data n arena (runs ++ runs')) (hlt : ∀ a ∈ runs, ∀ b ∈ runs', a.key < b.key) :
    ∀ p ∈ runs.flatMap (runPositions arena), ∀ q ∈ runs'.flatMap (runPositions arena),
      Behind data n p q := by
  intro p hp q hq hzero
  obtain ⟨a, ha, hpa⟩ := List.mem_flatMap.mp hp
  obtain ⟨b, hb, hqb⟩ := List.mem_flatMap.mp hq
  have hrunA := h.left.runOf a ha
  have hrunB := h.right.runOf b hb
  refine suffix_lt_of_orderKeyAt_lt hzero hlen (hrunA.bound p hpa).le (hrunB.bound q hqb).le ?_
  rw [hrunA.key p hpa, hrunB.key q hqb]
  exact hlt a ha b hb

/-- The runs at the front with the key of the first one, and the others. -/
theorem Walk.split {run : Stage5Run} {rest : List Stage5Run} (h : Walk data n arena (run :: rest)) :
    run :: rest = (run :: rest.takeWhile fun r => r.key = run.key) ++
        (rest.dropWhile fun r => r.key = run.key) ∧
      (∀ a ∈ run :: rest.takeWhile fun r => r.key = run.key, a.key = run.key) ∧
      ∀ b ∈ rest.dropWhile fun r => r.key = run.key, run.key < b.key := by
  refine ⟨by rw [List.cons_append, List.takeWhile_append_dropWhile], ?_, ?_⟩
  · intro a ha
    rcases List.mem_cons.mp ha with rfl | ha
    · rfl
    · simpa using List.mem_takeWhile_imp ha
  · obtain ⟨hfirst, hkeys⟩ := List.pairwise_cons.mp h.keys
    have hsub := rest.dropWhile_sublist fun r => r.key = run.key
    have hrest := hkeys.sublist hsub
    have hge : ∀ b ∈ rest.dropWhile fun r => r.key = run.key, run.key ≤ b.key :=
      fun b hb => hfirst b (hsub.subset hb)
    have hhead := List.head?_dropWhile_not (fun r : Stage5Run => decide (r.key = run.key)) rest
    generalize (rest.dropWhile fun r => decide (r.key = run.key)) = later at hrest hge hhead ⊢
    cases later with
    | nil => simp
    | cons c later =>
        have hc : run.key < c.key := by
          have hne : c.key ≠ run.key := by simpa using hhead
          have hle := hge c List.mem_cons_self
          omega
        intro b hb
        rcases List.mem_cons.mp hb with rfl | hb
        · exact hc
        · exact hc.trans_le ((List.pairwise_cons.mp hrest).1 b hb)

/-- Runs of one key as segments to merge. -/
theorem Walk.segments {group : List Stage5Run} {key : Nat} (h : Walk data n arena group)
    (hkey : ∀ run ∈ group, run.key = key) :
    Segments data n key (group.map (runPositions arena)) where
  sorted := by
    intro seg hseg
    obtain ⟨run, hrun, rfl⟩ := List.mem_map.mp hseg
    exact RunOf.behind (h.runOf run hrun)
  sameKey := by
    rw [← List.flatMap_def]
    refine ⟨?_, ?_, h.nodup⟩
    · intro p hp
      obtain ⟨run, hrun, hp⟩ := List.mem_flatMap.mp hp
      exact (h.runOf run hrun).bound p hp
    · intro p hp
      obtain ⟨run, hrun, hp⟩ := List.mem_flatMap.mp hp
      rw [(h.runOf run hrun).key p hp, hkey run hrun]

theorem Walk.counts {group : List Stage5Run} (h : Walk data n arena group) :
    group.map stage5RunCount = (group.map (runPositions arena)).map List.length := by
  rw [List.map_map]
  apply List.map_congr_left
  intro run hrun
  exact (runPositions_length (h.inArena run hrun)).symm

theorem Walk.singleton {run : Stage5Run} (h : Walk data n arena [run]) :
    Merged data n ([run].flatMap (runPositions arena)) (runPositions arena run) := by
  rw [List.flatMap_singleton]
  exact ⟨List.Perm.refl _, RunOf.behind (h.runOf run (by simp))⟩

theorem twoEqualKeyRuns_returns {view : Stage5View}
    (hlen : view.logicalLen + 3 ≤ view.data.length) {left right : Stage5Run} {key : Nat}
    (h : Walk view.data view.logicalLen arena [left, right])
    (hkey : ∀ run ∈ [left, right], run.key = key) :
    Returns (twoEqualKeyRuns view arena left right)
      (Merged view.data view.logicalLen ([left, right].flatMap (runPositions arena))) := by
  have hflat : [left, right].flatMap (runPositions arena) =
      runPositions arena left ++ runPositions arena right := by simp
  have hsame := (h.segments hkey).sameKey
  rw [← List.flatMap_def, hflat] at hsame
  rw [twoEqualKeyRuns, fusedRunPositions_eq (h.inArena left (by simp)),
    fusedRunPositions_eq (h.inArena right (by simp)), hflat]
  exact merge_merged (RunOf.behind (h.runOf left (by simp))) (RunOf.behind (h.runOf right (by simp)))
    hsame.nodup fun p hp q hq hne => twoRunsLess_settles hlen hsame hp hq hne

end Groups

section Materializing

/-- A run whose positions lie among the first `n` of the arena. -/
structure InFront (n : Nat) (run : Stage5Run) : Prop where
  noLiteral : stage5RunIsLiteral run = false
  bound : stage5RunBegin run + stage5RunCount run ≤ n

variable {n : Nat} {arena : List Nat}

/-- The block of eight may be longer than the run. -/
theorem copyMaterializedRun_returns {dst : List Nat} {start : Nat} {run : Stage5Run}
    (hrun : InFront n run) (harena : arena.length = n + materializedSaTailWords)
    (hdst : start + stage5RunCount run + materializedSaTailWords ≤ dst.length) :
    Returns (copyMaterializedRun dst start arena run) fun r =>
      r.2 = stage5RunCount run ∧ r.1.length = dst.length ∧
        r.1.take (start + stage5RunCount run) = dst.take start ++ runPositions arena run := by
  have hbound := hrun.bound
  have hpos := count_pos run
  rw [materializedSaTailWords] at harena hdst
  rw [copyMaterializedRun, materializedSaCopyWords, materializedSaTailWords, runPositions,
    hrun.noLiteral]
  generalize hk : (if stage5RunCount run ≤ 7 + 1 then 7 + 1 else stage5RunCount run) = k
  have hcount : stage5RunCount run ≤ k ∧ k ≤ stage5RunCount run + 7 := by
    split at hk <;> omega
  have hread : stage5RunBegin run + k ≤ arena.length := by omega
  have hwrite : start + (slice arena (stage5RunBegin run) k).length ≤ dst.length := by
    rw [slice_length hread]
    omega
  simp only [readAt_eq_some hread, writeAt_eq_some hwrite, Option.bind_eq_bind, Option.bind_some]
  refine Returns.pure ⟨rfl, copyAt_length hwrite, ?_⟩
  rw [take_copyAt_le hwrite (by rw [slice_length hread]; omega), if_neg (by decide)]
  congr 1
  exact take_slice hcount.1

/-- Positions have been written behind those that were there. -/
structure Wrote (n : Nat) (m : Materializing) (out : List Nat) (m' : Materializing) : Prop where
  pos : m'.outPos = m.outPos + out.length
  length : m'.out.length = m.out.length
  written : m'.out.take m'.outPos = m.out.take m.outPos ++ out
  group : n + materializedSaTailWords ≤ m'.groupPositions.length

theorem Wrote.trans {m m' m'' : Materializing} {out out' : List Nat} (h : Wrote n m out m')
    (h' : Wrote n m' out' m'') : Wrote n m (out ++ out') m'' where
  pos := by rw [h'.pos, h.pos, List.length_append, Nat.add_assoc]
  length := h'.length.trans h.length
  written := by rw [h'.written, h.written, List.append_assoc]
  group := h'.group

/-- The buffers have room for the runs that are left. -/
structure Room (n : Nat) (m : Materializing) (total : Nat) : Prop where
  out : m.out.length = n + materializedSaTailWords
  group : n + materializedSaTailWords ≤ m.groupPositions.length
  fits : m.outPos + total ≤ n

theorem Wrote.room {m m' : Materializing} {out : List Nat} {rest : Nat} (h : Wrote n m out m')
    (hroom : Room n m (out.length + rest)) : Room n m' rest where
  out := h.length.trans hroom.out
  group := h.group
  fits := by
    have hfits := hroom.fits
    rw [h.pos]
    omega

theorem copyRun_returns {m : Materializing} {run : Stage5Run} (hrun : InFront n run)
    (hin : InArena arena run) (harena : arena.length = n + materializedSaTailWords)
    (hroom : Room n m (stage5RunCount run)) :
    Returns (m.copyRun arena run) (Wrote n m (runPositions arena run)) := by
  have hfits := hroom.fits
  have hlength := runPositions_length hin
  have hout : m.outPos + stage5RunCount run + materializedSaTailWords ≤ m.out.length := by
    rw [hroom.out]
    omega
  refine Returns.bind (copyMaterializedRun_returns hrun harena hout) ?_
  rintro ⟨out, copied⟩ ⟨hcopied, hout, hwritten⟩
  dsimp only at hcopied hout hwritten
  rw [hcopied]
  exact Returns.pure ⟨by rw [hlength], hout, hwritten, hroom.group⟩

/-- The runs of a group side by side. -/
theorem gatherRuns_returns {group : List Stage5Run} {groupPositions : List Nat}
    (hfront : ∀ run ∈ group, InFront n run) (hin : ∀ run ∈ group, InArena arena run)
    (harena : arena.length = n + materializedSaTailWords)
    (hgroup : n + materializedSaTailWords ≤ groupPositions.length)
    (hfits : (group.flatMap (runPositions arena)).length ≤ n) :
    Returns (gatherRuns arena group groupPositions) fun r =>
      r.2 = (group.flatMap (runPositions arena)).length ∧ r.1.length = groupPositions.length ∧
        r.1.take r.2 = group.flatMap (runPositions arena) := by
  rw [gatherRuns]
  refine forEach_returns (fun done _ (s : List Nat × Nat) =>
    s.2 = (done.flatMap (runPositions arena)).length ∧ s.1.length = groupPositions.length ∧
      s.1.take s.2 = done.flatMap (runPositions arena)) group (groupPositions, 0)
    ⟨rfl, rfl, rfl⟩ ?_
  rintro done run rest ⟨positions, filled⟩ rfl ⟨hfilled, hlength, htake⟩
  dsimp only at hfilled hlength htake ⊢
  have hcount := runPositions_length (hin run (by simp))
  rw [List.flatMap_append, List.flatMap_cons, List.length_append, List.length_append] at hfits
  refine Returns.bind (copyMaterializedRun_returns (hfront run (by simp)) harena (by omega)) ?_
  rintro ⟨positions', copied⟩ ⟨hcopied, hlength', htake'⟩
  dsimp only at hcopied hlength' htake'
  refine Returns.pure ⟨?_, hlength'.trans hlength, ?_⟩
  · rw [List.flatMap_append, List.flatMap_singleton, List.length_append, hcount, hcopied, hfilled]
  · rw [hcopied, htake', htake, List.flatMap_append, List.flatMap_singleton]

/-- The positions of the runs, merged, have been written. -/
def WroteRuns (view : Stage5View) (arena : List Nat) (runs : List Stage5Run)
    (m m' : Materializing) : Prop :=
  ∃ out, Merged view.data view.logicalLen (runs.flatMap (runPositions arena)) out ∧
    Wrote view.logicalLen m out m'

variable {view : Stage5View} (hlen : view.logicalLen + 3 ≤ view.data.length)
  (harena : arena.length = view.logicalLen + materializedSaTailWords)

theorem WroteRuns.nil {m : Materializing} (hroom : Room view.logicalLen m 0) :
    WroteRuns view arena [] m m :=
  ⟨[], ⟨List.Perm.refl _, List.Pairwise.nil⟩, rfl, rfl, by rw [List.append_nil], hroom.group⟩

include hlen in
theorem WroteRuns.append {runs runs' : List Stage5Run} {m m' m'' : Materializing}
    (hwalk : Walk view.data view.logicalLen arena (runs ++ runs'))
    (hlt : ∀ a ∈ runs, ∀ b ∈ runs', a.key < b.key) (h : WroteRuns view arena runs m m')
    (h' : WroteRuns view arena runs' m' m'') : WroteRuns view arena (runs ++ runs') m m'' := by
  obtain ⟨out, hmerged, hwrote⟩ := h
  obtain ⟨out', hmerged', hwrote'⟩ := h'
  refine ⟨out ++ out', ?_, hwrote.trans hwrote'⟩
  rw [List.flatMap_append]
  exact hmerged.append hmerged' (hwalk.behind hlen hlt)

theorem Room.left {runs runs' : List Stage5Run} {m : Materializing}
    (h : Room n m ((runs ++ runs').flatMap (runPositions arena)).length) :
    Room n m (runs.flatMap (runPositions arena)).length where
  out := h.out
  group := h.group
  fits := by
    have hfits := h.fits
    rw [List.flatMap_append, List.length_append] at hfits
    omega

theorem WroteRuns.room {runs runs' : List Stage5Run} {m m' : Materializing}
    (h : WroteRuns view arena runs m m')
    (hroom : Room view.logicalLen m ((runs ++ runs').flatMap (runPositions arena)).length) :
    Room view.logicalLen m' (runs'.flatMap (runPositions arena)).length := by
  obtain ⟨out, hmerged, hwrote⟩ := h
  rw [List.flatMap_append, List.length_append, ← hmerged.perm.length_eq] at hroom
  exact hwrote.room hroom

include hlen harena in
theorem materializeGroup_returns {group : List Stage5Run} {key : Nat} {m : Materializing}
    (h : Walk view.data view.logicalLen arena group) (hkey : ∀ run ∈ group, run.key = key)
    (hfront : ∀ run ∈ group, InFront view.logicalLen run)
    (hroom : Room view.logicalLen m (group.flatMap (runPositions arena)).length) :
    Returns (materializeGroup view arena group m) (WroteRuns view arena group m) := by
  have hwrite : ∀ out : List Nat, out.length = (group.flatMap (runPositions arena)).length →
      m.outPos + out.length ≤ m.out.length := by
    intro out hout
    have hfits := hroom.fits
    rw [hroom.out]
    omega
  unfold materializeGroup
  split
  · rename_i run
    refine (copyRun_returns (hfront run (by simp)) (h.inArena run (by simp)) harena ?_).mono ?_
    · rwa [List.flatMap_singleton, runPositions_length (h.inArena run (by simp))] at hroom
    · intro m' hm'
      exact ⟨_, h.singleton, hm'⟩
  · rename_i left right
    refine Returns.bind (twoEqualKeyRuns_returns hlen h hkey) ?_
    intro out hmerged
    have hfits := hwrite out hmerged.perm.length_eq
    rw [writeAt_eq_some hfits]
    exact Returns.pure ⟨out, hmerged, rfl, copyAt_length hfits, take_copyAt hfits, hroom.group⟩
  · refine Returns.bind (gatherRuns_returns hfront h.inArena harena hroom.group
      (by have := hroom.fits; omega)) ?_
    rintro ⟨positions, gathered⟩ ⟨hgathered, hlength, htake⟩
    dsimp only at hgathered hlength htake ⊢
    have hgroup := hroom.group
    have hfits := hroom.fits
    rw [hgathered, List.flatMap_def] at htake
    rw [h.counts]
    refine Returns.bind (mergeEqualKeyRunsAfterKey_returns hlen m.mergePositions (h.segments hkey)
      (by rw [← List.flatMap_def]; omega) htake) ?_
    rintro ⟨positions', mergePositions⟩ ⟨hlength', -, hmerged⟩
    dsimp only at hlength' hmerged ⊢
    rw [← List.flatMap_def, ← hgathered] at hmerged
    have hread : 0 + gathered ≤ positions'.length := by omega
    have hout := hwrite (positions'.take gathered) (hmerged.perm.length_eq)
    have hsize := hmerged.perm.length_eq
    rw [readAt_eq_some hread, ← take_eq_slice]
    simp only [Option.bind_eq_bind, Option.bind_some, writeAt_eq_some hout]
    refine Returns.pure ⟨_, hmerged, ?_, copyAt_length hout, ?_, by dsimp only; omega⟩
    · dsimp only
      omega
    · have hfront := take_copyAt hout
      rwa [hsize, ← hgathered] at hfront

include hlen harena in
/-- Runs with keys of their own are copied one after the other. -/
theorem copyRuns_returns {runs : List Stage5Run} {m : Materializing}
    (h : Walk view.data view.logicalLen arena runs)
    (hkeys : runs.Pairwise fun a b => a.key < b.key)
    (hfront : ∀ run ∈ runs, InFront view.logicalLen run)
    (hroom : Room view.logicalLen m (runs.flatMap (runPositions arena)).length) :
    Returns (forEach (Materializing.copyRun arena) runs m) (WroteRuns view arena runs m) := by
  induction runs generalizing m with
  | nil => exact Returns.pure (WroteRuns.nil hroom)
  | cons run runs ih =>
      have hsplit : Walk view.data view.logicalLen arena ([run] ++ runs) := h
      have hroom' : Room view.logicalLen m (([run] ++ runs).flatMap (runPositions arena)).length :=
        hroom
      obtain ⟨hfirst, hrest⟩ := List.pairwise_cons.mp hkeys
      have hin := h.inArena run List.mem_cons_self
      have hone := hroom'.left
      rw [List.flatMap_singleton, runPositions_length hin] at hone
      refine Returns.bind (copyRun_returns (hfront run List.mem_cons_self) hin harena hone) ?_
      intro m' hm'
      have hwrote : WroteRuns view arena [run] m m' := ⟨_, hsplit.left.singleton, hm'⟩
      refine (ih hsplit.right hrest (fun r hr => hfront r (List.mem_cons_of_mem _ hr))
        (hwrote.room hroom')).mono ?_
      intro m'' hm''
      refine WroteRuns.append hlen hsplit ?_ hwrote hm''
      intro a ha b hb
      rw [List.mem_singleton.mp ha]
      exact hfirst b hb

theorem fourUnique_keys {runs : List Stage5Run} (h : fourUnique runs = true)
    (hkeys : runs.Pairwise fun a b => a.key ≤ b.key) :
    ((runs.take 4).Pairwise fun a b => a.key < b.key) ∧
      ∀ a ∈ runs.take 4, ∀ b ∈ runs.drop 4, a.key < b.key := by
  unfold fourUnique at h
  split at h
  · rename_i r0 r1 r2 r3 rest
    simp only [Bool.and_eq_true, decide_eq_true_eq] at h
    obtain ⟨⟨⟨h01, h12⟩, h23⟩, hnext⟩ := h
    obtain ⟨hk0, hk1, hk2, hk3, hrest⟩ : _ ∧ _ ∧ _ ∧ _ ∧ _ := by
      simpa only [List.pairwise_cons] using hkeys
    have h0 := hk0 r1 (by simp)
    have h1 := hk1 r2 (by simp)
    have h2 := hk2 r3 (by simp)
    refine ⟨?_, ?_⟩
    · simp only [List.take_succ_cons, List.take_zero, List.pairwise_cons, List.mem_cons,
        List.not_mem_nil, or_false, forall_eq_or_imp, forall_eq, List.Pairwise.nil, false_imp_iff,
        implies_true, and_true]
      omega
    · have hlast : ∀ b ∈ rest, r3.key < b.key := by
        intro b hb
        cases rest with
        | nil => simp at hb
        | cons r4 rest =>
            have h34 := hk3 r4 (by simp)
            have hne : r3.key ≠ r4.key := by simpa using hnext
            rcases List.mem_cons.mp hb with rfl | hb
            · omega
            · have := (List.pairwise_cons.mp hrest).1 b hb
              omega
      intro a ha b hb
      have hb' := hlast b (by simpa using hb)
      simp only [List.take_succ_cons, List.take_zero, List.mem_cons, List.not_mem_nil,
        or_false] at ha
      rcases ha with rfl | rfl | rfl | rfl <;> omega
  · simp at h

include hlen harena in
theorem materializeRuns_returns (fuel : Nat) {runs : List Stage5Run} {m : Materializing}
    (h : Walk view.data view.logicalLen arena runs) (hfuel : runs.length ≤ fuel)
    (hfront : ∀ run ∈ runs, InFront view.logicalLen run)
    (hroom : Room view.logicalLen m (runs.flatMap (runPositions arena)).length) :
    Returns (materializeRuns view arena fuel runs m) (WroteRuns view arena runs m) := by
  induction fuel generalizing runs m with
  | zero =>
      obtain rfl : runs = [] := List.length_eq_zero_iff.mp (by omega)
      exact Returns.pure (WroteRuns.nil hroom)
  | succ fuel ih =>
      cases runs with
      | nil => exact Returns.pure (WroteRuns.nil hroom)
      | cons run rest =>
          rw [materializeRuns]
          split
          · rename_i hfour
            obtain ⟨hunique, hlt⟩ := fourUnique_keys hfour h.keys
            have hsplit := List.take_append_drop 4 (run :: rest)
            have hlength : ((run :: rest).drop 4).length ≤ fuel := by
              rw [List.length_drop]
              omega
            rw [← hsplit] at h hroom
            refine Returns.bind (copyRuns_returns hlen harena h.left hunique
              (fun r hr => hfront r (List.take_subset _ _ hr)) hroom.left) ?_
            intro m' hm'
            refine (ih h.right hlength (fun r hr => hfront r (List.drop_subset _ _ hr))
              (hm'.room hroom)).mono ?_
            intro m'' hm''
            rw [← hsplit]
            exact hm'.append hlen h hlt hm''
          · obtain ⟨hsplit, hkey, hlt⟩ := h.split
            have hlength : rest.length = (rest.takeWhile fun r => r.key = run.key).length +
                (rest.dropWhile fun r => r.key = run.key).length := by
              rw [← List.length_append, List.takeWhile_append_dropWhile]
            have hmem : ∀ r ∈ (run :: rest.takeWhile fun r => r.key = run.key) ++
                rest.dropWhile fun r => r.key = run.key, InFront view.logicalLen r := by
              rwa [← hsplit]
            rw [List.length_cons] at hfuel
            rw [hsplit] at h hroom
            refine Returns.bind (materializeGroup_returns hlen harena h.left hkey
              (fun r hr => hmem r (List.mem_append_left _ hr)) hroom.left) ?_
            intro m' hm'
            refine (ih h.right (by omega) (fun r hr => hmem r (List.mem_append_right _ hr))
              (hm'.room hroom)).mono ?_
            intro m'' hm''
            rw [hsplit]
            exact hm'.append hlen h (fun a ha b hb => (hkey a ha).symm ▸ hlt b hb) hm''

end Materializing

section Hashing

/-- The sink has been given these words: those the hash has absorbed and those
still in the buffer. -/
structure Holds (sink : FusedHashSink) (words : List Nat) : Prop where
  buffer : sink.buffer.length = sinkBufferWords
  buffered : sink.buffered < sinkBufferWords
  bytes : sink.ctx ++ castSlice (sink.buffer.take sink.buffered) = castSlice words
  positions : sink.positions = words.length

theorem castSlice_nil : castSlice [] = [] := rfl

theorem castSlice_append (s t : List Nat) : castSlice (s ++ t) = castSlice s ++ castSlice t := by
  rw [castSlice, List.flatMap_append, castSlice, castSlice]

theorem holds_new : Holds FusedHashSink.new [] where
  buffer := by simp only [FusedHashSink.new, List.length_replicate]
  buffered := by decide
  bytes := rfl
  positions := rfl

/-- Words moved to the buffer, which is flushed when it is full. -/
theorem Holds.push {sink : FusedHashSink} {words : List Nat} (h : Holds sink words)
    (chunk : List Nat) (hfits : sink.buffered + chunk.length ≤ sinkBufferWords) :
    writeAt sink.buffer sink.buffered chunk = some (copyAt sink.buffer sink.buffered chunk) ∧
      Holds (FusedHashSink.flushFull { sink with
        buffer := copyAt sink.buffer sink.buffered chunk
        buffered := sink.buffered + chunk.length
        positions := sink.positions + chunk.length }) (words ++ chunk) := by
  have hwrite : sink.buffered + chunk.length ≤ sink.buffer.length := by rwa [h.buffer]
  have hbytes : sink.ctx ++ castSlice ((copyAt sink.buffer sink.buffered chunk).take
      (sink.buffered + chunk.length)) = castSlice (words ++ chunk) := by
    rw [take_copyAt hwrite, castSlice_append, ← List.append_assoc, h.bytes, castSlice_append]
  have hpositions : sink.positions + chunk.length = (words ++ chunk).length := by
    rw [List.length_append, h.positions]
  have hlength := (copyAt_length hwrite).trans h.buffer
  refine ⟨writeAt_eq_some hwrite, ?_⟩
  unfold FusedHashSink.flushFull
  split
  · rename_i hfull
    dsimp only at hfull
    refine ⟨hlength, Nat.zero_lt_succ _, ?_, hpositions⟩
    dsimp only
    rw [hfull, List.take_of_length_le hlength.le] at hbytes
    rw [hbytes, List.take_zero, castSlice_nil, List.append_nil]
  · rename_i hfree
    dsimp only at hfree
    exact ⟨hlength, by dsimp only; omega, hbytes, hpositions⟩

theorem writePos_returns {sink : FusedHashSink} {words : List Nat} (h : Holds sink words)
    (pos : Nat) : Returns (sink.writePos pos) fun s => Holds s (words ++ [pos]) := by
  obtain ⟨hwrite, hholds⟩ := h.push [pos] (by
    rw [List.length_singleton]
    exact h.buffered)
  rw [FusedHashSink.writePos, hwrite]
  exact Returns.pure hholds

theorem writePosEach_returns {sink : FusedHashSink} {words : List Nat} (h : Holds sink words)
    (positions : List Nat) :
    Returns (writePosEach sink positions) fun s => Holds s (words ++ positions) := by
  rw [writePosEach]
  refine forEach_returns (fun done _ s => Holds s (words ++ done)) positions sink
    (by rwa [List.append_nil]) ?_
  intro done pos rest s _ hs
  rw [← List.append_assoc]
  exact writePos_returns hs pos

theorem writeLoop_returns (fuel : Nat) {sink : FusedHashSink} {words positions : List Nat}
    (h : Holds sink words) (hfuel : positions.length ≤ fuel) :
    Returns (sink.writeLoop fuel positions) fun s => Holds s (words ++ positions) := by
  have hdone : ∀ {sink : FusedHashSink} {words : List Nat}, Holds sink words →
      Holds sink (words ++ []) := by
    intro sink words h
    rwa [List.append_nil]
  induction fuel generalizing sink words positions with
  | zero =>
      obtain rfl : positions = [] := List.length_eq_zero_iff.mp (by omega)
      exact Returns.pure (hdone h)
  | succ fuel ih =>
      have hbuffered := h.buffered
      rw [FusedHashSink.writeLoop]
      split
      · rename_i hempty
        obtain rfl := List.isEmpty_iff.mp hempty
        exact Returns.pure (hdone h)
      · rename_i hsome
        have hpos : 0 < positions.length :=
          List.length_pos_iff.mpr fun hnil => hsome (List.isEmpty_iff.mpr hnil)
        split
        · -- Whole blocks go past the empty buffer.
          rename_i hbypass
          have hmod := Nat.mod_lt positions.length (show sinkBufferWords > 0 by decide)
          dsimp only
          generalize hfull : positions.length - positions.length % sinkBufferWords = full
          have hlength : (positions.take full).length = full := by
            rw [List.length_take]
            omega
          have hnext : Holds { sink with
              ctx := sink.ctx ++ castSlice (positions.take full)
              positions := sink.positions + full } (words ++ positions.take full) := by
            refine ⟨h.buffer, h.buffered, ?_, ?_⟩
            · have hbytes := h.bytes
              rw [hbypass.1, List.take_zero, castSlice_nil, List.append_nil] at hbytes
              dsimp only
              rw [hbypass.1, List.take_zero, castSlice_append, hbytes, castSlice_nil,
                List.append_nil]
            · rw [List.length_append, hlength, h.positions]
          refine (ih hnext (by rw [List.length_drop]; omega)).mono ?_
          intro s hs
          rwa [List.append_assoc, List.take_append_drop] at hs
        · dsimp only
          generalize hchunk : min positions.length (sinkBufferWords - sink.buffered) = chunk
          have hlength : (positions.take chunk).length = chunk := by
            rw [List.length_take]
            omega
          obtain ⟨hwrite, hnext⟩ := h.push (positions.take chunk) (by
            rw [hlength]
            omega)
          rw [hwrite]
          rw [hlength] at hnext
          refine (ih hnext (by rw [List.length_drop]; omega)).mono ?_
          intro s hs
          rwa [List.append_assoc, List.take_append_drop] at hs

theorem writePositions_returns {sink : FusedHashSink} {words : List Nat} (h : Holds sink words)
    (positions : List Nat) :
    Returns (sink.writePositions positions) fun s => Holds s (words ++ positions) :=
  writeLoop_returns positions.length h le_rfl

theorem Holds.finalize {sink : FusedHashSink} {words : List Nat} (h : Holds sink words) :
    sink.finalize = castSlice words := by
  rw [FusedHashSink.finalize, ← h.bytes]
  split
  · rfl
  · rename_i hempty
    rw [not_not.mp hempty, List.take_zero, castSlice_nil, List.append_nil]

variable {view : Stage5View} {arena : List Nat}
  (hlen : view.logicalLen + 3 ≤ view.data.length)

/-- The positions of the runs, merged, have been handed to the sink. -/
def HashedRuns (view : Stage5View) (arena : List Nat) (runs : List Stage5Run) (words : List Nat)
    (w : Writing) : Prop :=
  ∃ out, Merged view.data view.logicalLen (runs.flatMap (runPositions arena)) out ∧
    Holds w.sink (words ++ out)

include hlen in
theorem sortedLiteralGroup_returns {group : List Stage5Run} {key : Nat}
    (h : Walk view.data view.logicalLen arena group) (hkey : ∀ run ∈ group, run.key = key) :
    Returns (sortedLiteralGroup view group) fun r => ∀ out, r = some out →
      Merged view.data view.logicalLen (group.flatMap (runPositions arena)) out := by
  rw [sortedLiteralGroup]
  split
  · exact Returns.pure (by simp)
  · split
    · rename_i hliteral
      have hflat : group.flatMap (runPositions arena) = group.map stage5RunBegin := by
        rw [List.flatMap_def, List.map_congr_left (g := fun run => [stage5RunBegin run])
          fun run hrun => by
            rw [runPositions, if_pos (List.all_eq_true.mp hliteral run hrun)],
          ← List.flatMap_def, List.map_eq_flatMap]
      have hsame := (h.segments hkey).sameKey
      rw [← List.flatMap_def] at hsame
      rw [hflat] at hsame ⊢
      refine Returns.bind (insertionSort_merged hsame.nodup (fun p hp q hq hne =>
        suffixLessAfterKey_settles hlen hsame hp hq hne) fun p hp => ?_) ?_
      · exact suffixLessAfterKey_isSome (by omega) (hsame.bound p hp).le (hsame.bound p hp).le
      · intro out hmerged
        refine Returns.pure ?_
        rintro _ ⟨⟩
        exact hmerged
    · exact Returns.pure (by simp)

include hlen in
theorem writeMergedGroup_returns {group : List Stage5Run} {key : Nat} {w : Writing}
    {words : List Nat} (h : Walk view.data view.logicalLen arena group)
    (hkey : ∀ run ∈ group, run.key = key) (hsink : Holds w.sink words) :
    Returns (writeMergedGroup view arena group w) (HashedRuns view arena group words) := by
  have hgather : group.mapM (fusedRunPositions arena) = some (group.map (runPositions arena)) :=
    Columns.mapM_eq_some fun run hrun => fusedRunPositions_eq (h.inArena run hrun)
  rw [writeMergedGroup, hgather, h.counts]
  simp only [Option.bind_eq_bind, Option.bind_some]
  refine Returns.bind (mergeEqualKeyRunsAfterKey_returns hlen w.mergePositions (h.segments hkey)
    le_rfl (List.take_length ..)) ?_
  rintro ⟨positions, mergePositions⟩ ⟨hlength, -, hmerged⟩
  dsimp only at hlength hmerged ⊢
  rw [← hlength, List.take_length, ← List.flatMap_def] at hmerged
  refine Returns.bind (writePositions_returns hsink positions) ?_
  intro sink hsink'
  exact Returns.pure ⟨positions, hmerged, hsink'⟩

include hlen in
theorem writeGroup_returns {group : List Stage5Run} {key : Nat} {w : Writing} {words : List Nat}
    (h : Walk view.data view.logicalLen arena group) (hkey : ∀ run ∈ group, run.key = key)
    (hsink : Holds w.sink words) :
    Returns (writeGroup view arena group w) (HashedRuns view arena group words) := by
  unfold writeGroup
  split
  · rename_i run
    have hone := h.singleton
    have hin := h.inArena run (by simp)
    split
    · rename_i hliteral
      rw [runPositions, if_pos hliteral] at hone
      refine Returns.bind (writePos_returns hsink (stage5RunBegin run)) ?_
      intro sink hsink'
      exact Returns.pure ⟨_, hone, hsink'⟩
    · rename_i hliteral
      rw [runPositions, if_neg hliteral] at hone
      rw [readAt_eq_some (hin.resolve_left hliteral)]
      simp only [Option.bind_eq_bind, Option.bind_some]
      refine Returns.bind (writePositions_returns hsink _) ?_
      intro sink hsink'
      exact Returns.pure ⟨_, hone, hsink'⟩
  · refine Returns.bind (sortedLiteralGroup_returns hlen h hkey) ?_
    intro literals hliterals
    split
    · rename_i positions
      refine Returns.bind (writePosEach_returns hsink positions) ?_
      intro sink hsink'
      exact Returns.pure ⟨positions, hliterals positions rfl, hsink'⟩
    · rename_i left right
      refine Returns.bind (twoEqualKeyRuns_returns hlen h hkey) ?_
      intro positions hmerged
      refine Returns.bind (writePosEach_returns hsink positions) ?_
      intro sink hsink'
      exact Returns.pure ⟨positions, hmerged, hsink'⟩
    · exact writeMergedGroup_returns hlen h hkey hsink

include hlen in
theorem writeRuns_returns (fuel : Nat) {runs : List Stage5Run} {w : Writing} {words : List Nat}
    (h : Walk view.data view.logicalLen arena runs) (hfuel : runs.length ≤ fuel)
    (hsink : Holds w.sink words) :
    Returns (writeRuns view arena fuel runs w) (HashedRuns view arena runs words) := by
  have hdone : ∀ {w : Writing} {words : List Nat}, Holds w.sink words →
      HashedRuns view arena [] words w := by
    intro w words h
    exact ⟨[], ⟨List.Perm.refl _, List.Pairwise.nil⟩, by rwa [List.append_nil]⟩
  induction fuel generalizing runs w words with
  | zero =>
      obtain rfl : runs = [] := List.length_eq_zero_iff.mp (by omega)
      exact Returns.pure (hdone hsink)
  | succ fuel ih =>
      cases runs with
      | nil => exact Returns.pure (hdone hsink)
      | cons run rest =>
          obtain ⟨hsplit, hkey, hlt⟩ := h.split
          have hlength : rest.length = (rest.takeWhile fun r => r.key = run.key).length +
              (rest.dropWhile fun r => r.key = run.key).length := by
            rw [← List.length_append, List.takeWhile_append_dropWhile]
          rw [List.length_cons] at hfuel
          rw [hsplit] at h
          rw [writeRuns]
          refine Returns.bind (writeGroup_returns hlen h.left hkey hsink) ?_
          rintro w' ⟨out, hmerged, hsink'⟩
          refine (ih h.right (by omega) hsink').mono ?_
          rintro w'' ⟨out', hmerged', hsink''⟩
          rw [List.append_assoc] at hsink''
          refine ⟨out ++ out', ?_, hsink''⟩
          rw [hsplit, List.flatMap_append]
          exact hmerged.append hmerged'
            (h.behind hlen fun a ha b hb => (hkey a ha).symm ▸ hlt b hb)

end Hashing

end DirtybirdMiner.V114.Walks
