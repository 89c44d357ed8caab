import DirtybirdMiner.Lib.SuffixOrder
import DirtybirdMiner.V114.Streaming
import DirtybirdMiner.V114.Walks

/-!
Both descriptor paths compute the suffix array, whatever the flags and the
contents of the scratch are, and refuse exactly the inputs that are too short, too
long or without flags.
-/

namespace DirtybirdMiner.V114.Correct

open DirtybirdMiner.Lib.Bytes
open DirtybirdMiner.Lib.Checked
open DirtybirdMiner.Lib.Buffers
open DirtybirdMiner.Lib.SuffixOrder
open DirtybirdMiner.Pow.Difficulty
open DirtybirdMiner.V114.Model
open DirtybirdMiner.V114.Order
open DirtybirdMiner.V114.Runs
open DirtybirdMiner.V114.Merging
open DirtybirdMiner.V114.Walks

section Emissions

variable {data : List UInt8} {n : Nat} {positions : List Nat}

/-- All positions, merged, are the suffix array. -/
theorem isSuffixArray_of_merged {out : List Nat} (hlen : n ≤ data.length)
    (h : Merged data n positions out) (hpositions : positions.Perm (List.range n))
    (hzero : ZeroTail data n) : IsSuffixArray (textOf data n) out where
  perm := by
    rw [textOf_length hlen]
    exact h.perm.trans hpositions
  sorted := h.sorted.imp fun hlt => hlt hzero

end Emissions

section Materialized

theorem materializeGroupRunsToSa_returns {view : Stage5View} {scratch : FusedScratch}
    {out : List Nat} (hlen : view.logicalLen + 3 ≤ view.data.length)
    (h : Builder.Built view.data view.logicalLen scratch)
    (hout : view.logicalLen + materializedSaTailWords ≤ out.length) :
    Returns (materializeGroupRunsToSa view scratch out) fun r => r.1 = true ∧
      r.2.2.length = out.length ∧
      r.2.2.drop (view.logicalLen + materializedSaTailWords) =
        out.drop (view.logicalLen + materializedSaTailWords) ∧
      ∃ positions, positions.Perm (List.range view.logicalLen) ∧
        Merged view.data view.logicalLen positions (r.2.2.take view.logicalLen) := by
  obtain ⟨harena, hruns, htmp, hgroup, harenaLen, hrunsLen, hcounts, hnoLiteral, hemitted⟩ := h
  rw [materializeGroupRunsToSa, if_neg (by omega), hcounts]
  refine Returns.bind (radixSortRunsByStoredKeyPrefixCounted_returns (by omega) (by omega)
    fun run hrun => hemitted.key_lt hlen hrun) ?_
  rintro ⟨runs, tmp⟩ ⟨hperm, hkeys⟩
  dsimp only at hperm hkeys ⊢
  -- The arena is the positions emitted and seven words behind them.
  have hsplit : scratch.arenaPositions.take (view.logicalLen + materializedSaTailWords) =
      scratch.arenaPositions.take view.logicalLen ++
        slice scratch.arenaPositions view.logicalLen materializedSaTailWords := by
    rw [List.take_add, slice]
  have hfront : (scratch.arenaPositions.take view.logicalLen).length = view.logicalLen := by
    rw [List.length_take]
    omega
  have hlength : (scratch.arenaPositions.take
      (view.logicalLen + materializedSaTailWords)).length =
      view.logicalLen + materializedSaTailWords := by
    rw [List.length_take, min_eq_left harena]
  obtain ⟨hwalk, hpositions⟩ := Walk.of_emitted (hemitted.extend _) List.nodup_range hperm hkeys
  rw [← hsplit] at hwalk hpositions
  have htotal := hpositions.length_eq
  rw [List.length_range] at htotal
  have hinFront : ∀ run ∈ runs.take scratch.materializedRunsLen, InFront view.logicalLen run := by
    intro run hrun
    have hmem := hperm.mem_iff.mp hrun
    have hliteral := hnoLiteral run hmem
    refine ⟨hliteral, ?_⟩
    have hin := (hemitted.inArena run hmem).resolve_left (by rw [hliteral]; decide)
    rwa [hfront] at hin
  have hroom : Room view.logicalLen {
      out := out.take (view.logicalLen + materializedSaTailWords)
      outPos := 0
      groupPositions := scratch.groupPositions
      mergePositions := scratch.mergePositions }
      ((runs.take scratch.materializedRunsLen).flatMap (runPositions
        (scratch.arenaPositions.take (view.logicalLen + materializedSaTailWords)))).length := by
    refine ⟨?_, hgroup, by dsimp only; omega⟩
    rw [List.length_take, min_eq_left hout]
  refine Returns.bind (materializeRuns_returns hlen hlength _ hwalk
    (List.length_take_le _ _) hinFront hroom) ?_
  rintro m ⟨positions, hmerged, hwrote⟩
  have hpos := hwrote.pos
  have houtLength := hwrote.length.trans hroom.out
  have hwritten := hwrote.written
  rw [hmerged.perm.length_eq, htotal, Nat.zero_add] at hpos
  rw [hpos, List.take_zero, List.nil_append] at hwritten
  refine Returns.pure ⟨by rw [hpos, decide_eq_true rfl], ?_, ?_, _, hpositions, ?_⟩
  · dsimp only
    rw [List.length_append, houtLength, List.length_drop]
    omega
  · dsimp only
    rw [← houtLength, List.drop_left, houtLength]
  · dsimp only
    rw [List.take_append_of_le_length (by omega), hwritten]
    exact hmerged

/-- The inputs that `sa_build_compact_fused` refuses. -/
def Refused (data : List UInt8) (n : Nat) (flags : List UInt8) : Prop :=
  n = 0 ∨ 0x20000 < n ∨ data.length < n + 3 ∨ flags.length ≤ n >>> 8

theorem saBuildCompactFused_refuses {data flags : List UInt8} {n : Nat} {sa : List Nat}
    (scratch : FusedScratch) (h : Refused data n flags ∨ sa.length < n + 7) :
    ∃ scratch', saBuildCompactFused data n flags sa scratch = some (false, sa, scratch') := by
  rw [saBuildCompactFused, materializedSaTailWords]
  split
  · exact ⟨_, rfl⟩
  · split
    · exact ⟨_, rfl⟩
    · rename_i hfits
      have hlength : (data.take (n + 3)).length = n + 3 := by
        rw [List.length_take]
        omega
      have hbuild : buildMaterializedGroupRuns (data.take (n + 3)) n flags scratch =
          some (false, scratch) := by
        rw [buildMaterializedGroupRuns, descriptorArenaIndexCount, hlength]
        rcases h with (h | h | h | h) | h
        · rw [if_pos (by omega)]
        · rw [if_pos (by omega)]
        · omega
        · split
          · rfl
          · rfl
        · omega
      exact ⟨scratch, by simp [hbuild]⟩

theorem textOf_take {data : List UInt8} {n k : Nat} (h : n ≤ k) :
    textOf (data.take k) n = textOf data n := by
  rw [textOf, List.take_take, min_eq_left h, textOf]

theorem zeroTail_take {data : List UInt8} {n : Nat} :
    ZeroTail (data.take (n + 3)) n ↔ ZeroTail data n := by
  rw [ZeroTail, slice_take le_rfl, ZeroTail]

theorem saBuildCompactFused_accepts {data flags : List UInt8} {n : Nat} {sa : List Nat}
    (scratch : FusedScratch) (h : ¬(Refused data n flags ∨ sa.length < n + 7)) :
    Returns (saBuildCompactFused data n flags sa scratch) fun r => r.1 = true ∧
      r.2.1.length = sa.length ∧ r.2.1.drop (n + 7) = sa.drop (n + 7) ∧
      (r.2.1.take n).Perm (List.range n) ∧
      (ZeroTail data n → IsSuffixArray (textOf data n) (r.2.1.take n)) := by
  obtain ⟨hpos, hmax, hlen, hflags, hsa⟩ :
      0 < n ∧ n ≤ 0x20000 ∧ n + 3 ≤ data.length ∧ n >>> 8 < flags.length ∧ n + 7 ≤ sa.length := by
    simp only [Refused, not_or, not_lt, not_le] at h
    omega
  have hlength : (data.take (n + 3)).length = n + 3 := by
    rw [List.length_take, min_eq_left hlen]
  rw [saBuildCompactFused, materializedSaTailWords, if_neg (by omega), if_neg (by omega)]
  refine Returns.bind (Builder.buildMaterializedGroupRuns_returns scratch hpos hmax hlength hflags) ?_
  rintro ⟨built, scratch'⟩ ⟨hbuilt, hscratch⟩
  dsimp only at hbuilt hscratch
  subst hbuilt
  refine Returns.bind (materializeGroupRunsToSa_returns hlength.ge hscratch hsa) ?_
  rintro ⟨ok, scratch'', sa'⟩ ⟨hok, hsize, hdrop, positions, hpositions, hmerged⟩
  refine Returns.pure ⟨hok, hsize, hdrop, hmerged.perm.trans hpositions, ?_⟩
  intro hzero
  rw [← textOf_take (Nat.le_add_right n 3)]
  exact isSuffixArray_of_merged (by rw [hlength]; omega) hmerged hpositions (zeroTail_take.mpr hzero)

/-- The materialized path, from any scratch: it returns true exactly on the inputs
it does not refuse, writes nothing behind the seven words of headroom, and behind
a zero tail what it writes is the suffix array. -/
theorem saBuildCompactFused_exact (data flags : List UInt8) (n : Nat) (sa : List Nat)
    (scratch : FusedScratch) :
    ∃ ok sa' scratch', saBuildCompactFused data n flags sa scratch = some (ok, sa', scratch') ∧
      (ok = false ↔ n = 0 ∨ 0x20000 < n ∨ data.length < n + 3 ∨ sa.length < n + 7 ∨
        flags.length ≤ n >>> 8) ∧
      (ok = false → sa' = sa) ∧
      sa'.length = sa.length ∧ sa'.drop (n + 7) = sa.drop (n + 7) ∧
      (ok = true → slice data n 3 = [0, 0, 0] →
        IsSuffixArray (textOf data n) (sa'.take n) ∧
          ∀ other, IsSuffixArray (textOf data n) other → other = sa'.take n) := by
  by_cases h : Refused data n flags ∨ sa.length < n + 7
  · obtain ⟨scratch', hrun⟩ := saBuildCompactFused_refuses scratch h
    refine ⟨false, sa, scratch', hrun, ?_, fun _ => rfl, rfl, rfl, by simp⟩
    rw [Refused] at h
    exact iff_of_true rfl (by omega)
  · obtain ⟨⟨ok, sa', scratch'⟩, hrun, hok, hsize, hdrop, -, hsorted⟩ :=
      saBuildCompactFused_accepts scratch h
    dsimp only at hok hsize hdrop hsorted
    subst hok
    refine ⟨true, sa', scratch', hrun, ?_, by simp, hsize, hdrop, fun _ hzero => ?_⟩
    · rw [Refused] at h
      exact iff_of_false (by decide) (by omega)
    · exact ⟨hsorted hzero, fun other hother => hother.unique (hsorted hzero)⟩

end Materialized

section Streamed

variable (sha256 : List UInt8 → Hash)

theorem writeFusedRunsToHash_returns {view : Stage5View} {scratch : FusedScratch}
    (hlen : view.logicalLen + 3 ≤ view.data.length)
    (h : Emitted view.data view.logicalLen scratch.arenaPositions scratch.runs
      (List.range view.logicalLen)) :
    Returns (writeFusedRunsToHash sha256 view scratch) fun r =>
      ∃ positions out, positions.Perm (List.range view.logicalLen) ∧
        Merged view.data view.logicalLen positions out ∧ r.1 = some (sha256 (castSlice out)) := by
  rw [writeFusedRunsToHash]
  refine Returns.bind (radixSortRunsByStoredKey_returns fun run hrun => h.key_lt hlen hrun) ?_
  rintro ⟨runs, tmp⟩ ⟨hperm, hkeys⟩
  dsimp only at hperm hkeys ⊢
  obtain ⟨hwalk, hpositions⟩ := Walk.of_emitted h List.nodup_range hperm hkeys
  refine Returns.bind (writeRuns_returns hlen _ hwalk le_rfl holds_new) ?_
  rintro w ⟨out, hmerged, hsink⟩
  rw [List.nil_append] at hsink
  have hcount : w.sink.positions = view.logicalLen := by
    rw [hsink.positions, hmerged.perm.length_eq, hpositions.length_eq, List.length_range]
  refine Returns.pure ⟨_, out, hpositions, hmerged, ?_⟩
  dsimp only
  rw [if_pos hcount, hsink.finalize]

theorem hashCompactFused_refuses {data flags : List UInt8} {n : Nat} (c1 : Bool)
    (scratch : FusedScratch) (h : Refused data n flags) :
    ∃ scratch', hashCompactFused sha256 data n flags c1 scratch = some (none, scratch') := by
  rw [hashCompactFused]
  split
  · exact ⟨_, rfl⟩
  · split
    · exact ⟨_, rfl⟩
    · rename_i hfits
      have hlength : (data.take (n + 3)).length = n + 3 := by
        rw [List.length_take]
        omega
      have hemit : runFusedEmit (data.take (n + 3)) n flags c1 scratch = some (false, scratch) := by
        rw [runFusedEmit, descriptorArenaIndexCount, hlength]
        rcases h with h | h | h | h
        · rw [if_pos (by omega)]
        · rw [if_pos (by omega)]
        · omega
        · split
          · rfl
          · rw [if_neg (by omega)]
      exact ⟨scratch, by simp [hemit]⟩

theorem hashCompactFused_accepts {data flags : List UInt8} {n : Nat} (c1 : Bool)
    (scratch : FusedScratch) (h : ¬Refused data n flags) :
    Returns (hashCompactFused sha256 data n flags c1 scratch) fun r =>
      ∃ out, r.1 = some (sha256 (castSlice out)) ∧
        (ZeroTail data n → IsSuffixArray (textOf data n) out) := by
  obtain ⟨hpos, hmax, hlen, hflags⟩ :
      0 < n ∧ n ≤ 0x20000 ∧ n + 3 ≤ data.length ∧ n >>> 8 < flags.length := by
    simp only [Refused, not_or, not_lt, not_le] at h
    omega
  have hlength : (data.take (n + 3)).length = n + 3 := by
    rw [List.length_take, min_eq_left hlen]
  rw [hashCompactFused, if_neg (by omega), if_neg (by omega)]
  refine Returns.bind (Streaming.runFusedEmit_returns c1 scratch hpos hmax hlength.ge hflags) ?_
  rintro ⟨emitted, scratch'⟩ ⟨hemitted, hruns⟩
  dsimp only at hemitted hruns
  subst hemitted
  refine Returns.mono (writeFusedRunsToHash_returns sha256 hlength.ge hruns) ?_
  rintro r ⟨positions, out, hpositions, hmerged, hr⟩
  refine ⟨out, hr, ?_⟩
  intro hzero
  rw [← textOf_take (Nat.le_add_right n 3)]
  exact isSuffixArray_of_merged (by rw [hlength]; omega) hmerged hpositions
    (zeroTail_take.mpr hzero)

theorem castSlice_length (words : List Nat) : (castSlice words).length = 4 * words.length := by
  induction words with
  | nil => rfl
  | cons w words ih =>
      rw [castSlice, List.flatMap_cons, List.length_append, leBytes_length, ← castSlice, ih,
        List.length_cons]
      omega

/-- The streaming path, from any scratch and for both settings of the switch: it
refuses the inputs that the materialized path refuses, and behind a zero tail it
hashes what the materialized path writes. -/
theorem hashCompactFused_agrees (data flags : List UInt8) (n : Nat) (c1 : Bool)
    (scratch : FusedScratch) :
    ∃ hash scratch', hashCompactFused sha256 data n flags c1 scratch = some (hash, scratch') ∧
      (hash.isSome ↔ 1 ≤ n ∧ n ≤ 0x20000 ∧ n + 3 ≤ data.length ∧ n >>> 8 < flags.length) ∧
      (hash.isSome → slice data n 3 = [0, 0, 0] → ∃ suffixArray,
        IsSuffixArray (textOf data n) suffixArray ∧
        (castSlice suffixArray).length = 4 * n ∧
        hash = some (sha256 (castSlice suffixArray)) ∧
        ∀ sa scratchSa, n + 7 ≤ sa.length → ∃ sa' scratchSa',
          saBuildCompactFused data n flags sa scratchSa = some (true, sa', scratchSa') ∧
            sa'.take n = suffixArray) := by
  by_cases h : Refused data n flags
  · obtain ⟨scratch', hrun⟩ := hashCompactFused_refuses sha256 c1 scratch h
    refine ⟨none, scratch', hrun, iff_of_false (by simp) ?_, by simp⟩
    rw [Refused] at h
    omega
  · obtain ⟨⟨hash, scratch'⟩, hrun, out, hhash, hsorted⟩ :=
      hashCompactFused_accepts sha256 c1 scratch h
    dsimp only at hhash
    subst hhash
    have hlen : n ≤ data.length := by
      simp only [Refused, not_or, not_lt] at h
      omega
    refine ⟨_, scratch', hrun, iff_of_true rfl ?_, fun _ hzero => ⟨out, hsorted hzero, ?_, rfl, ?_⟩⟩
    · simp only [Refused, not_or, not_lt, not_le] at h
      omega
    · rw [castSlice_length, (hsorted hzero).length_eq, textOf_length hlen]
    · intro sa scratchSa hsa
      obtain ⟨⟨ok, sa', scratchSa'⟩, hrun', hok, -, -, -, hsorted'⟩ :=
        saBuildCompactFused_accepts scratchSa
          (show ¬(Refused data n flags ∨ sa.length < n + 7) from not_or.mpr ⟨h, by omega⟩)
      dsimp only at hok hsorted'
      subst hok
      exact ⟨sa', scratchSa', hrun', (hsorted' hzero).unique (hsorted hzero)⟩

end Streamed

end DirtybirdMiner.V114.Correct
