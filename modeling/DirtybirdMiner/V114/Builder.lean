import DirtybirdMiner.V114.Columns

/-!
The materialized builder leaves runs for every position of the text, whatever the
flags and the old contents of the buffers are.  It copies positions in blocks of
eight words, so what it wrote is the front part of its buffers.
-/

namespace DirtybirdMiner.V114.Builder

open DirtybirdMiner.Lib.Bytes
open DirtybirdMiner.Lib.Checked
open DirtybirdMiner.Lib.Buffers
open DirtybirdMiner.Lib.LexCompare
open DirtybirdMiner.V114.Model
open DirtybirdMiner.V114.Order
open DirtybirdMiner.V114.Runs
open DirtybirdMiner.V114.Columns

/-- The builder has emitted these positions. -/
structure Building (data : List UInt8) (n : Nat) (positions : List Nat)
    (builder : MaterializedBuilder) : Prop where
  arenaLength : builder.arena.length = n + materializedSaTailWords
  runsLength : builder.runs.length = n
  arenaLen : builder.arenaLen = positions.length
  runsLen : builder.runsLen ≤ positions.length
  counts : builder.radixCounts = countsOf (builder.runs.take builder.runsLen)
  noLiteral : ∀ run ∈ builder.runs.take builder.runsLen, stage5RunIsLiteral run = false
  emitted : Emitted data n (builder.arena.take builder.arenaLen)
    (builder.runs.take builder.runsLen) positions

theorem Building.permute {data : List UInt8} {n : Nat} {positions positions' : List Nat}
    {builder : MaterializedBuilder} (h : Building data n positions builder)
    (hperm : positions.Perm positions') : Building data n positions' builder where
  arenaLength := h.arenaLength
  runsLength := h.runsLength
  arenaLen := h.arenaLen.trans hperm.length_eq
  runsLen := hperm.length_eq ▸ h.runsLen
  counts := h.counts
  noLiteral := h.noLiteral
  emitted := h.emitted.permute hperm

variable {data : List UInt8} {n : Nat} (hlen : n + 3 ≤ data.length)
  (hmax : n ≤ descriptorArenaIndexCount)

section Appending

include hmax in
/-- A new run, once its positions stand behind those of the other runs. -/
theorem pushRun_returns {positions group arena : List Nat} {builder : MaterializedBuilder}
    {key : Nat} (h : Building data n positions builder)
    (hlength : arena.length = builder.arena.length)
    (hwritten : arena.take (builder.arenaLen + group.length) =
      builder.arena.take builder.arenaLen ++ group)
    (hne : 0 < group.length) (hroom : positions.length + group.length ≤ n)
    (hrun : RunOf data n key group) :
    Returns (builder.pushRun arena (makeStage5Run key builder.arenaLen group.length false)
      group.length) (Building data n (positions ++ group)) := by
  have hruns := h.runsLen
  have harena : (builder.arena.take builder.arenaLen).length = builder.arenaLen := by
    rw [List.length_take, h.arenaLength, h.arenaLen]
    omega
  have hstart : builder.arenaLen < 2 ^ 17 := by
    rw [descriptorArenaIndexCount] at hmax
    rw [h.arenaLen]
    omega
  have hpush := h.emitted.pushArena (by rwa [harena]) hne hrun
  rw [harena, ← hwritten] at hpush
  have hfit : builder.runsLen + [makeStage5Run key builder.arenaLen group.length false].length ≤
      builder.runs.length := by
    rw [h.runsLength, List.length_singleton]
    omega
  have htake := take_copyAt hfit
  rw [List.length_singleton] at htake
  rw [MaterializedBuilder.pushRun, writeAt_eq_some hfit]
  refine Returns.pure ⟨?_, ?_, ?_, ?_, ?_, ?_, ?_⟩
  · exact hlength.trans h.arenaLength
  · exact (copyAt_length hfit).trans h.runsLength
  · rw [List.length_append, h.arenaLen]
  · rw [List.length_append]
    dsimp only
    omega
  · dsimp only
    rw [htake, countsOf_concat, h.counts]
  · dsimp only
    rw [htake]
    intro run hrun
    rcases List.mem_append.mp hrun with hrun | hrun
    · exact h.noLiteral run hrun
    · rw [List.mem_singleton.mp hrun]
      exact (makeStage5Run_arena key hstart hne).1
  · dsimp only
    rw [htake]
    exact hpush

/-- After some blocks of eight the copy has written that many words. -/
theorem copyOrigins_returns {arena origins : List Nat} {start first count : Nat} (rel : Nat)
    (harena : start + count + materializedSaTailWords ≤ arena.length)
    (horigins : first + count + materializedSaTailWords ≤ origins.length) :
    Returns (copyOrigins arena origins start first count rel) fun r =>
      r.length = arena.length ∧ r.take (start + count) =
        arena.take start ++ (slice origins first count).map fun origin => (origin + rel) % 2 ^ 32 := by
  rw [materializedSaTailWords] at harena horigins
  rw [copyOrigins, materializedSaCopyWords, materializedSaTailWords]
  refine Returns.mono (forUp_returns (fun k r => r.length = arena.length ∧ r.take (start + 8 * k) =
    arena.take start ++ (slice origins first (8 * k)).map fun origin => (origin + rel) % 2 ^ 32)
    0 ((count + 7) / 8) arena (by simp) ?_) ?_
  · rintro k r - hk ⟨hr, htake⟩
    rw [Nat.zero_add] at hk
    simp only [readAt_eq_some (show first + k * 8 + 8 ≤ origins.length by omega),
      Option.bind_eq_bind, Option.bind_some]
    have hblock : ((slice origins (first + k * 8) 8).map
        fun origin => (origin + rel) % 2 ^ 32).length = 8 := by
      rw [List.length_map, slice_length (by omega)]
    have hfit : start + k * 8 + ((slice origins (first + k * 8) 8).map
        fun origin => (origin + rel) % 2 ^ 32).length ≤ r.length := by
      rw [hblock]
      omega
    have hwritten := take_copyAt hfit
    rw [hblock] at hwritten
    rw [writeAt_eq_some hfit]
    refine Returns.pure ⟨(copyAt_length hfit).trans hr, ?_⟩
    rw [Nat.mul_succ, ← Nat.add_assoc, Nat.mul_comm 8 k, hwritten, Nat.mul_comm k 8, htake, slice_add,
      List.map_append, List.append_assoc]
  · rintro r ⟨hr, htake⟩
    refine ⟨hr, ?_⟩
    have hmin : r.take (start + count) = (r.take (start + 8 * ((count + 7) / 8))).take
        (start + count) := by
      rw [List.take_take, min_eq_left (by omega)]
    rw [Nat.zero_add] at htake
    rw [hmin, htake, List.take_append, List.length_take, min_eq_left (by omega),
      List.take_of_length_le (by rw [List.length_take]; omega), Nat.add_sub_cancel_left,
      ← List.map_take, take_slice (by omega)]

/-- The buffer of origins and its live part. -/
structure Origins (data : List UInt8) (n base g rel : Nat) (order : List Nat) : Prop where
  length : stage4MaxGroupCount + materializedSaTailWords ≤ order.length
  col : SortedColumn data n base g rel ((order.take g).map (· + rel))

variable {base g rel : Nat} {order : List Nat}

theorem Origins.take_length (h : Origins data n base g rel order) : (order.take g).length = g := by
  have hlength := h.col.length
  rwa [List.length_map] at hlength

/-- A block of the column lies at the same place of the buffer. -/
theorem Origins.slice_eq (h : Origins data n base g rel order) (hrel : rel < 256)
    (hfit : base + 256 * g ≤ n) (hn : n ≤ 2 ^ 32) {first count : Nat} (hcount : first + count ≤ g) :
    (slice order first count).map (fun origin => (origin + rel) % 2 ^ 32) =
      slice ((order.take g).map (· + rel)) first count := by
  rw [slice_map, slice_take hcount]
  apply List.map_congr_left
  intro origin horigin
  have hmem : origin + rel ∈ (order.take g).map (· + rel) := by
    rw [← slice_take hcount] at horigin
    exact List.mem_map_of_mem (mem_of_mem_slice horigin)
  have hbound := h.col.bound hrel hfit hmem
  exact Nat.mod_eq_of_lt (by omega)

include hlen hmax in
theorem appendRun_returns {positions : List Nat} {builder : MaterializedBuilder} {key first count : Nat}
    (h : Building data n positions builder) (hrel : rel < 256) (hfit : base + 256 * g ≤ n)
    (horder : Origins data n base g rel order) (hcount : 0 < count) (hle : first + count ≤ g)
    (hkey : ∀ p ∈ slice ((order.take g).map (· + rel)) first count, keyAt data p = key)
    (hroom : positions.length + count ≤ n) :
    Returns (appendRun data order first count rel builder)
      (Building data n (positions ++ slice ((order.take g).map (· + rel)) first count)) := by
  have hmax' := hmax
  rw [descriptorArenaIndexCount] at hmax'
  have horderLength := horder.length
  have hg : g ≤ stage4MaxGroupCount := by
    rw [stage4MaxGroupCount, descriptorArenaIndexCount, Nat.shiftRight_eq_div_pow]
    omega
  have hlength : (slice ((order.take g).map (· + rel)) first count).length = count := by
    apply slice_length
    rw [horder.col.length]
    exact hle
  have hhead : (slice ((order.take g).map (· + rel)) first count)[0]? =
      some (order[first] + rel) := by
    rw [slice, List.getElem?_take_of_lt hcount, List.getElem?_drop, List.getElem?_map,
      List.getElem?_take_of_lt (by omega), Nat.add_zero, List.getElem?_eq_getElem (by omega)]
    rfl
  have hmem := List.mem_of_getElem? hhead
  have hbound := horder.col.bound hrel hfit (mem_of_mem_slice hmem)
  rw [appendRun]
  refine Returns.bind (copyOrigins_returns rel (by rw [h.arenaLength, h.arenaLen]; omega)
    (by omega)) ?_
  rintro arena ⟨harena, hwritten⟩
  rw [List.getElem?_eq_getElem (show first < order.length by omega)]
  simp only [Option.bind_eq_bind, Option.bind_some]
  rw [load24Unchecked_eq (by omega), hkey _ hmem]
  rw [horder.slice_eq hrel hfit (by omega) hle] at hwritten
  have hpush := pushRun_returns hmax h harena (by rwa [hlength]) (by omega) (by omega)
    (horder.col.runOf hrel hfit hlen hkey)
  rwa [hlength] at hpush

include hlen hmax in
theorem emitLiterals_returns {start count : Nat} {positions : List Nat}
    {builder : MaterializedBuilder} (h : Building data n positions builder)
    (hfit : start + count ≤ n) (hroom : positions.length + count ≤ n) :
    Returns (emitLiterals data start count builder)
      (Building data n (positions ++ List.range' start count)) := by
  rw [emitLiterals]
  refine Returns.mono (forUp_returns (fun i => Building data n (positions ++ List.range' start i))
    0 count builder (by simpa using h) ?_) (fun b hb => by rwa [Nat.zero_add] at hb)
  intro rel b _ hrel hb
  have hlength := hb.arenaLen
  rw [List.length_append, List.length_range'] at hlength
  have hfits : b.arenaLen + [start + rel].length ≤ b.arena.length := by
    rw [hb.arenaLength, List.length_singleton]
    omega
  have hrun : RunOf data n (orderKeyAt data (start + rel)) [start + rel] := by
    refine ⟨?_, ?_, List.pairwise_singleton _ _⟩
    · intro p hp
      obtain rfl := List.mem_singleton.mp hp
      omega
    · intro p hp
      obtain rfl := List.mem_singleton.mp hp
      rfl
  simp only [load24Unchecked_eq (show start + rel + 4 ≤ data.length by omega),
    stage5RadixOrderKey_keyAt (show start + rel + 3 ≤ data.length by omega), writeAt_eq_some hfits,
    Option.bind_eq_bind, Option.bind_some]
  have hpush := pushRun_returns hmax hb (copyAt_length hfits) (take_copyAt hfits) (by simp)
    (by simp; omega) hrun
  rw [List.range'_concat, Nat.one_mul, ← List.append_assoc]
  exact hpush

end Appending

section EqualColumns

variable {base g rel : Nat}

/-- The groups of the run agree in this column. -/
def EqualColumn (data : List UInt8) (base g rel : Nat) : Prop :=
  ∀ chunk < g, data[base + 256 * chunk + rel]? = data[base + rel]?

theorem allM_returns {α : Type} {p : α → Option Bool} (good : α → Prop) {l : List α}
    (h : ∀ x ∈ l, Returns (p x) fun b => b = true → good x) :
    Returns (l.allM p) fun b => b = true → ∀ x ∈ l, good x := by
  induction l with
  | nil => exact Returns.pure (by simp)
  | cons x l ih =>
      obtain ⟨b, hb, hgood⟩ := h x List.mem_cons_self
      have hrest := ih fun y hy => h y (List.mem_cons_of_mem x hy)
      rw [List.allM, hb]
      cases b with
      | false => exact Returns.pure (by simp)
      | true =>
          refine hrest.mono ?_
          intro c hc hctrue
          simpa using ⟨hgood rfl, hc hctrue⟩

theorem columnEqual_returns (hlen : n ≤ data.length) (hfit : base + 256 * g ≤ n) (hg : 0 < g)
    (hrel : rel < 256) :
    Returns (columnEqual data base g rel) fun b => b = true → EqualColumn data base g rel := by
  have hfirst : data[base + rel]? = some data[base + rel] :=
    List.getElem?_eq_getElem (by omega)
  rw [columnEqual, hfirst]
  simp only [Option.bind_eq_bind, Option.bind_some]
  refine Returns.mono (allM_returns (fun chunk =>
    data[base + 256 * chunk + rel]? = data[base + rel]?) ?_) ?_
  · intro chunk hchunk
    rw [List.mem_range'_1] at hchunk
    have hother : data[base + 256 * chunk + rel]? = some data[base + 256 * chunk + rel] :=
      List.getElem?_eq_getElem (by omega)
    rw [Nat.shiftLeft_eq, Nat.mul_comm chunk, hother]
    refine Returns.pure ?_
    intro heq
    rw [hfirst, of_decide_eq_true heq]
  · intro b hb hbtrue chunk hchunk
    rcases Nat.eq_zero_or_pos chunk with rfl | hpos
    · rfl
    · exact hb hbtrue chunk (List.mem_range'_1.mpr (by omega))

/-- The columns marked as equal are equal. -/
def MarkedEqual (data : List UInt8) (base g : Nat) (equalColumns : List Bool) : Prop :=
  ∀ rel < 256, equalColumns.getD rel false = true → EqualColumn data base g rel

theorem equalColumns_returns (hlen : n ≤ data.length) (hfit : base + 256 * g ≤ n) (hg : 0 < g) :
    Returns ((List.range 256).mapM (columnEqual data base g)) (MarkedEqual data base g) := by
  have hmark : ∀ rel, ∃ b, rel < 256 →
      columnEqual data base g rel = some b ∧ (b = true → EqualColumn data base g rel) := by
    intro rel
    rcases Nat.lt_or_ge rel 256 with hrel | hrel
    · obtain ⟨b, hb, heq⟩ := columnEqual_returns hlen hfit hg hrel
      exact ⟨b, fun _ => ⟨hb, heq⟩⟩
    · exact ⟨false, fun h => absurd h (by omega)⟩
  choose mark hmark using hmark
  refine ⟨(List.range 256).map mark,
    mapM_eq_some fun rel hrel => (hmark rel (List.mem_range.mp hrel)).1, ?_⟩
  intro rel hrel hget
  rw [List.getD_eq_getElem?_getD, List.getElem?_map, List.getElem?_range hrel] at hget
  exact (hmark rel hrel).2 hget

theorem EqualColumn.byte {order : List Nat} (h : EqualColumn data base g rel)
    (horder : order.Perm (column base g 0)) {p : Nat} (hp : p ∈ order) :
    data[p + rel]? = data[base + rel]? := by
  obtain ⟨chunk, hchunk, rfl⟩ := mem_column.mp (horder.mem_iff.mp hp)
  rw [Nat.add_zero]
  exact h chunk hchunk

/-- Three equal columns give one key. -/
theorem keyAt_of_equal {order : List Nat} (h0 : EqualColumn data base g rel)
    (h1 : EqualColumn data base g (rel + 1)) (h2 : EqualColumn data base g (rel + 2))
    (horder : order.Perm (column base g 0)) {p : Nat} (hp : p ∈ order) :
    keyAt data (p + rel) = keyAt data (base + rel) := by
  rw [keyAt, keyAt]
  congr 1
  apply List.ext_getElem?
  intro k
  simp only [slice, List.getElem?_take, List.getElem?_drop]
  split
  · rename_i hk
    obtain rfl | rfl | rfl : k = 0 ∨ k = 1 ∨ k = 2 := by omega
    · exact h0.byte horder hp
    · exact h1.byte horder hp
    · exact h2.byte horder hp
  · rfl

end EqualColumns

section Scans

variable {base g rel : Nat} {order : List Nat}

/-- The live origins are those of the groups. -/
theorem Origins.perm (h : Origins data n base g rel order) :
    (order.take g).Perm (column base g 0) := by
  have hperm := h.col.perm.map fun p => p - rel
  rw [← column_zero_map, List.map_map, List.map_map] at hperm
  simpa [Function.comp_def] using hperm

include hlen hmax in
theorem emitColumn_returns {positions : List Nat} {builder : MaterializedBuilder}
    {equalColumns : List Bool} (h : Building data n positions builder) (hrel : rel < 256)
    (hg : 0 < g) (hfit : base + 256 * g ≤ n) (hmarked : MarkedEqual data base g equalColumns)
    (horder : Origins data n base g rel order) (hroom : positions.length + g ≤ n) :
    Returns (emitColumn data equalColumns g rel order builder)
      (Building data n (positions ++ (order.take g).map (· + rel))) := by
  have hlength : ((order.take g).map (· + rel)).length = g := horder.col.length
  have hwhole : slice ((order.take g).map (· + rel)) 0 g = (order.take g).map (· + rel) := by
    rw [← take_eq_slice, List.take_of_length_le hlength.le]
  rw [emitColumn]
  split
  · rename_i heq
    have hkey : ∀ p ∈ slice ((order.take g).map (· + rel)) 0 g,
        keyAt data p = keyAt data (base + rel) := by
      intro p hp
      obtain ⟨origin, horigin, rfl⟩ := List.mem_map.mp (mem_of_mem_slice hp)
      exact keyAt_of_equal (hmarked _ (by omega) heq.2.1) (hmarked _ (by omega) heq.2.2.1)
        (hmarked _ (by omega) heq.2.2.2) horder.perm horigin
    have hrun := appendRun_returns hlen hmax h hrel hfit horder hg (by omega) hkey hroom
    rwa [hwhole] at hrun
  · have hle : 0 + g ≤ order.length := by
      have htake := horder.take_length
      rw [List.length_take] at htake
      omega
    have hkeys : (order.take g).mapM (fun origin => load24Unchecked data (origin + rel)) =
        some ((order.take g).map fun origin => keyAt data (origin + rel)) := by
      apply mapM_eq_some
      intro origin horigin
      have hbound := horder.col.bound hrel hfit (List.mem_map_of_mem (f := (· + rel)) horigin)
      exact load24Unchecked_eq (by omega)
    rw [readAt_eq_some hle, ← take_eq_slice]
    simp only [Option.bind_eq_bind, Option.bind_some, hkeys]
    refine Returns.mono (forGroups_returns (fun i =>
      Building data n (positions ++ ((order.take g).map (· + rel)).take i)) builder
      (by simpa using h) ?_) ?_
    · intro key first count b hcount hle hsame _ hb
      rw [List.length_map, horder.take_length] at hle
      have hkey : ∀ p ∈ slice ((order.take g).map (· + rel)) first count, keyAt data p = key := by
        intro p hp
        rw [slice_map] at hp
        obtain ⟨origin, horigin, rfl⟩ := List.mem_map.mp hp
        apply hsame
        rw [slice_map]
        exact List.mem_map_of_mem (f := fun origin => keyAt data (origin + rel)) horigin
      refine (appendRun_returns hlen hmax hb hrel hfit horder hcount hle hkey ?_).mono ?_
      · rw [List.length_append, List.length_take, hlength]
        omega
      · intro b' hb'
        rwa [take_eq_slice, slice_add, Nat.zero_add, ← take_eq_slice, ← List.append_assoc]
    · intro b hb
      rwa [List.length_map, horder.take_length, List.take_of_length_le hlength.le] at hb

/-- The columns from `rel` on are emitted, and the one before it is sorted. -/
structure Scanned (data : List UInt8) (n base g : Nat) (positions : List Nat) (rel : Nat)
    (order : List Nat) (builder : MaterializedBuilder) : Prop where
  building : Building data n (positions ++ covered base g rel) builder
  origins : 0 < rel → Origins data n base g (rel - 1) order
  length : stage4MaxGroupCount + materializedSaTailWords ≤ order.length

include hlen in
theorem reorderPrefix_returns (hrel : rel + 1 < 256) (hfit : base + 256 * g ≤ n)
    (horder : Origins data n base g (rel + 1) order) :
    Returns (reorderPrefix data g rel order) (Origins data n base g rel) := by
  have htake := horder.take_length
  have hg : 0 + g ≤ order.length := by
    rw [List.length_take] at htake
    omega
  have hsorted := horder.col.sorted
  rw [List.pairwise_map] at hsorted
  rw [reorderPrefix, readAt_eq_some hg, ← take_eq_slice]
  simp only [Option.bind_eq_bind, Option.bind_some]
  refine Returns.bind (reorderByLeadingByte_returns (n := n) (by omega) ?_ hsorted) ?_
  · intro p hp
    have hbound := horder.col.bound hrel hfit (List.mem_map_of_mem (f := (· + (rel + 1))) hp)
    omega
  · rintro live ⟨hperm, hlive⟩
    have hlength : 0 + live.length ≤ order.length := by
      rw [hperm.length_eq, htake]
      exact hg
    have hfront : (copyAt order 0 live).take g = live := by
      have hcopied := take_copyAt hlength
      rwa [Nat.zero_add, hperm.length_eq, htake, List.take_zero, List.nil_append] at hcopied
    rw [writeAt_eq_some hlength]
    refine Returns.pure ⟨?_, ?_, ?_⟩
    · rw [copyAt_length hlength]
      exact horder.length
    · rw [hfront, ← column_zero_map]
      exact (hperm.trans horder.perm).map _
    · rw [hfront, List.pairwise_map]
      exact hlive

include hlen in
/-- An equal column keeps the order. -/
theorem Origins.stepBack (horder : Origins data n base g (rel + 1) order) (hrel : rel + 1 < 256)
    (hfit : base + 256 * g ≤ n) (heq : EqualColumn data base g rel) :
    Origins data n base g rel order where
  length := horder.length
  col := by
    have hsorted := horder.col.sorted
    rw [List.pairwise_map] at hsorted
    refine ⟨?_, ?_⟩
    · rw [← column_zero_map]
      exact horder.perm.map _
    · rw [List.pairwise_map]
      refine sorted_of_equal_bytes (b := data.getD (base + rel) 0) (by omega) ?_ ?_ hsorted
      · intro p hp
        have hbound := horder.col.bound hrel hfit (List.mem_map_of_mem (f := (· + (rel + 1))) hp)
        omega
      · intro p hp
        rw [heq.byte horder.perm hp, List.getD_eq_getElem?_getD]
        obtain ⟨chunk, hchunk, rfl⟩ := mem_column.mp (horder.perm.mem_iff.mp hp)
        rw [List.getElem?_eq_getElem (show base + rel < data.length by omega), Option.getD_some]

include hlen in
/-- What follows a column: the order of the one before it. -/
theorem reorder_returns {equalColumns : List Bool} (hfit : base + 256 * g ≤ n)
    (hmarked : MarkedEqual data base g equalColumns) (hrel : rel < 256)
    (horder : Origins data n base g rel order) (builder : MaterializedBuilder) :
    Returns (if rel > 0 ∧ equalColumns.getD (rel - 1) false = false then do
        let order ← reorderPrefix data g (rel - 1) order
        some (order, builder)
      else some (order, builder)) fun r =>
      r.2 = builder ∧ (0 < rel → Origins data n base g (rel - 1) r.1) ∧
        stage4MaxGroupCount + materializedSaTailWords ≤ r.1.length := by
  split
  · rename_i hreorder
    obtain ⟨rel, rfl⟩ : ∃ k, rel = k + 1 := ⟨rel - 1, by omega⟩
    refine Returns.bind (reorderPrefix_returns hlen hrel hfit horder) ?_
    intro order' horder'
    exact Returns.pure ⟨rfl, fun _ => horder', horder'.length⟩
  · rename_i hskip
    refine Returns.pure ⟨rfl, ?_, horder.length⟩
    intro hpos
    obtain ⟨rel, rfl⟩ : ∃ k, rel = k + 1 := ⟨rel - 1, by omega⟩
    have hequal : equalColumns.getD rel false = true := by
      rw [Nat.add_sub_cancel] at hskip
      exact eq_true_of_ne_false fun hfalse => hskip ⟨hpos, hfalse⟩
    exact horder.stepBack hlen hrel hfit (hmarked rel (by omega) hequal)

include hlen hmax in
theorem emitGroupRunStep_returns {positions : List Nat} {equalColumns : List Bool}
    {s : List Nat × MaterializedBuilder} (hbase : base % 256 = 0)
    (hpositions : positions.length = base) (hg : 0 < g) (hfit : base + 256 * g ≤ n)
    (hmarked : MarkedEqual data base g equalColumns) (hrel : rel < 256)
    (h : Scanned data n base g positions (rel + 1) s.1 s.2) :
    Returns (emitGroupRunStep data equalColumns g rel s) fun r =>
      Scanned data n base g positions rel r.1 r.2 := by
  have horder := h.origins (by omega)
  rw [Nat.add_sub_cancel] at horder
  rw [emitGroupRunStep]
  refine Returns.bind (emitColumn_returns hlen hmax h.building hrel hg hfit hmarked horder
    (room_of_covered hbase hrel hpositions hfit)) ?_
  intro b hb
  have hnext : Building data n (positions ++ covered base g rel) b := by
    refine hb.permute ?_
    rw [List.append_assoc]
    exact ((horder.col.perm.append_left _).trans (covered_step hbase g hrel)).append_left _
  refine (reorder_returns hlen hfit hmarked hrel horder b).mono ?_
  rintro ⟨order', b'⟩ ⟨rfl, horder', hlength⟩
  exact ⟨hnext, horder', hlength⟩

/-- The order of the last column, from the sorted positions. -/
theorem Origins.ofSorted (horder : stage4MaxGroupCount + materializedSaTailWords ≤ order.length)
    (hg : g ≤ stage4MaxGroupCount) {sorted : List Nat} (hcol : SortedColumn data n base g 255 sorted) :
    (∀ pos ∈ sorted, 255 ≤ pos) ∧ 0 + (sorted.map fun pos => pos - 255).length ≤ order.length ∧
      Origins data n base g 255 (copyAt order 0 (sorted.map fun pos => pos - 255)) := by
  have hback : ∀ p ∈ sorted, 255 ≤ p := by
    intro p hp
    obtain ⟨chunk, -, rfl⟩ := mem_column.mp (hcol.perm.mem_iff.mp hp)
    omega
  have hwrite : 0 + (sorted.map fun pos => pos - 255).length ≤ order.length := by
    rw [List.length_map, hcol.length]
    omega
  have hfront : (copyAt order 0 (sorted.map fun pos => pos - 255)).take g =
      sorted.map fun pos => pos - 255 := by
    have hcopied := take_copyAt hwrite
    rwa [Nat.zero_add, List.length_map, hcol.length, List.take_zero, List.nil_append] at hcopied
  refine ⟨hback, hwrite, by rwa [copyAt_length hwrite], ?_⟩
  rw [hfront, List.map_map, List.map_congr_left (g := id) fun p hp => by
    simp [Nat.sub_add_cancel (hback p hp)], List.map_id]
  exact hcol

/-- There are not more groups than the order has words. -/
theorem groups_le {start stop n : Nat} (hmax : n ≤ descriptorArenaIndexCount)
    (hfit : 256 * stop ≤ n) : stop - start ≤ stage4MaxGroupCount := by
  rw [descriptorArenaIndexCount] at hmax
  rw [stage4MaxGroupCount, descriptorArenaIndexCount, Nat.shiftRight_eq_div_pow]
  omega

include hlen hmax in
theorem emitGroupRun_returns {start stop : Nat} {positions : List Nat}
    {s : List Nat × MaterializedBuilder} (h : Building data n positions s.2)
    (horder : stage4MaxGroupCount + materializedSaTailWords ≤ s.1.length)
    (hpositions : positions.length = 256 * start) (hlt : start < stop) (hfit : 256 * stop ≤ n) :
    Returns (emitGroupRun data n start stop s) fun r =>
      Building data n (positions ++ List.range' (256 * start) (256 * (stop - start))) r.2 ∧
        stage4MaxGroupCount + materializedSaTailWords ≤ r.1.length := by
  have hbase : start <<< 8 = 256 * start := by rw [Nat.shiftLeft_eq, Nat.mul_comm]
  rw [emitGroupRun, if_neg (by omega)]
  split
  · rename_i hone
    rw [hbase, hone]
    refine Returns.bind (emitLiterals_returns hlen hmax h (by omega) (by omega)) ?_
    intro b hb
    exact Returns.pure ⟨hb, horder⟩
  · have hsort : Returns (sortBy (compareSuffixesFull8 { logicalLen := n, data := data })
        (seedOrder (256 * start) (stop - start)))
        (SortedColumn data n (256 * start) (stop - start) 255) :=
      sortBy_seedOrder (by omega) (by omega) fun p hp q hq =>
        compareSuffixesFull8_eq (by dsimp only; omega) hp.le hq.le
    rw [hbase]
    refine Returns.bind hsort ?_
    intro sorted hcol
    obtain ⟨hback, hwrite, horigins⟩ :=
      Origins.ofSorted horder (@groups_le start _ _ hmax hfit) hcol
    rw [require_eq_some hback, writeAt_eq_some hwrite]
    simp only [Option.bind_eq_bind, Option.bind_some]
    refine Returns.bind (equalColumns_returns (n := n) (by omega) (by omega)
      (show 0 < stop - start by omega)) ?_
    intro equalColumns hmarked
    refine Returns.mono (forDown_returns (fun rel r =>
      Scanned data n (256 * start) (stop - start) positions rel r.1 r.2) 256 _ ⟨?_, ?_, ?_⟩
      fun rel r hrel hr => emitGroupRunStep_returns hlen hmax (by omega) hpositions (by omega)
        (by omega) hmarked hrel hr) ?_
    · rwa [covered_top, List.append_nil]
    · exact fun _ => horigins
    · exact horigins.length
    · intro r hr
      rw [← covered_all]
      exact ⟨hr.building, hr.length⟩

include hlen hmax in
/-- Whatever the flags are, the runs of groups cover all full groups. -/
theorem emitGroups_returns {flags : List UInt8} {builder : MaterializedBuilder}
    (h : Building data n [] builder)
    (horder : stage4MaxGroupCount + materializedSaTailWords ≤ order.length)
    (hflags : n >>> 8 < flags.length) :
    Returns (emitGroups data n flags (0, order, builder)) fun s =>
      Building data n (List.range (256 * (n >>> 8))) s.2.2 := by
  have hfull : n >>> 8 = n / 256 := by rw [Nat.shiftRight_eq_div_pow]
  rw [hfull] at hflags ⊢
  rw [emitGroups, hfull]
  refine Returns.mono (forUp_returns (fun group (s : Nat × List Nat × MaterializedBuilder) =>
    s.1 < group ∧ (group = 1 + n / 256 → s.1 = n / 256) ∧
    Building data n (List.range (256 * s.1)) s.2.2 ∧
    stage4MaxGroupCount + materializedSaTailWords ≤ s.2.1.length) 1 (n / 256) (0, order, builder)
    ⟨Nat.zero_lt_one, fun h => by dsimp only; omega, by simpa using h, horder⟩ ?_) ?_
  · rintro group ⟨start, r⟩ hlo hhi ⟨hstart, -, hr, hr'⟩
    dsimp only at hstart hr hr' ⊢
    rw [List.getElem?_eq_getElem (show group < flags.length by omega)]
    simp only [Option.bind_eq_bind, Option.bind_some]
    split
    · refine Returns.bind (emitGroupRun_returns hlen hmax hr hr' (by simp) hstart (by omega)) ?_
      rintro r' ⟨hnext, hnext'⟩
      refine Returns.pure ⟨by dsimp only; omega, by dsimp only; omega, ?_, hnext'⟩
      rwa [range_append_range', ← Nat.mul_add, Nat.add_sub_cancel' hstart.le] at hnext
    · rename_i hflag
      refine Returns.pure ⟨by dsimp only; omega, ?_, hr, hr'⟩
      intro hgroup
      exact absurd (.inr (by omega)) hflag
  · rintro s ⟨-, hs, hbuilding, -⟩
    rwa [hs rfl] at hbuilding

end Scans

/-- The scratch holds the runs of the whole text, ready to be sorted. -/
structure Built (data : List UInt8) (n : Nat) (scratch : FusedScratch) : Prop where
  arena : n + materializedSaTailWords ≤ scratch.arenaPositions.length
  runs : n ≤ scratch.runs.length
  tmp : n ≤ scratch.radixTmp.length
  group : n + materializedSaTailWords ≤ scratch.groupPositions.length
  arenaLen : scratch.materializedArenaLen = n
  runsLen : scratch.materializedRunsLen ≤ n
  counts : scratch.materializedRadixCounts =
    countsOf (scratch.runs.take scratch.materializedRunsLen)
  noLiteral : ∀ run ∈ scratch.runs.take scratch.materializedRunsLen, stage5RunIsLiteral run = false
  emitted : Emitted data n (scratch.arenaPositions.take n)
    (scratch.runs.take scratch.materializedRunsLen) (List.range n)

theorem le_grow_length {α : Type} (buf : List α) (len : Nat) (v : α) :
    len ≤ (grow buf len v).length := by
  rw [grow]
  split
  · rw [resize_length]
  · omega

theorem buildMaterializedGroupRuns_returns {flags : List UInt8} (scratch : FusedScratch)
    (hpos : 0 < n) (hmax : n ≤ descriptorArenaIndexCount) (hlen : data.length = n + 3)
    (hflags : n >>> 8 < flags.length) :
    Returns (buildMaterializedGroupRuns data n flags scratch) fun r =>
      r.1 = true ∧ Built data n r.2 := by
  have harena := le_grow_length scratch.arenaPositions (n + materializedSaTailWords) 0
  have hruns := le_grow_length scratch.runs n Stage5Run.zero
  have hfull : n >>> 8 = n / 256 := by rw [Nat.shiftRight_eq_div_pow]
  have htail : n &&& 0xff = n % 256 := by
    rw [show 0xff = 2 ^ 8 - 1 by rfl, Nat.and_two_pow_sub_one_eq_mod]
  rw [buildMaterializedGroupRuns, if_neg (by omega), if_neg (by omega), if_neg (by omega)]
  simp only [List.take_of_length_le hlen.le]
  have hstart : Building data n [] {
      arena := (grow scratch.arenaPositions (n + materializedSaTailWords) 0).take
        (n + materializedSaTailWords)
      runs := (grow scratch.runs n Stage5Run.zero).take n
      radixCounts := RadixCounts.zero
      arenaLen := 0
      runsLen := 0 } := by
    refine ⟨?_, ?_, rfl, le_rfl, countsOf_nil.symm, by simp, Emitted.nil⟩
    · rw [List.length_take, min_eq_left harena]
    · rw [List.length_take, min_eq_left hruns]
  refine Returns.bind (emitGroups_returns hlen.ge hmax hstart (le_grow_length _ _ _) hflags) ?_
  rintro ⟨start, order, builder⟩ hbuilding
  dsimp only at hbuilding ⊢
  simp only [hfull, htail, Nat.shiftLeft_eq] at hbuilding ⊢
  refine Returns.bind (emitLiterals_returns hlen.ge hmax hbuilding (by omega) (by simp; omega)) ?_
  intro b hb
  rw [Nat.mul_comm (n / 256), range_append_range', Nat.div_add_mod] at hb
  have harenaLen := hb.arenaLen
  have hrunsLen := hb.runsLen
  rw [List.length_range] at harenaLen hrunsLen
  rw [if_neg (by omega)]
  have hfrontArena : (b.arena ++ (grow scratch.arenaPositions (n + materializedSaTailWords) 0).drop
      (n + materializedSaTailWords)).take n = b.arena.take b.arenaLen := by
    rw [List.take_append_of_le_length (by rw [hb.arenaLength]; omega), harenaLen]
  have hfrontRuns : (b.runs ++ (grow scratch.runs n Stage5Run.zero).drop n).take b.runsLen =
      b.runs.take b.runsLen := by
    rw [List.take_append_of_le_length (by rw [hb.runsLength]; omega)]
  refine Returns.pure ⟨rfl, ?_, ?_, le_grow_length _ _ _, le_grow_length _ _ _, harenaLen, hrunsLen,
    ?_, ?_, ?_⟩
  · rw [List.length_append, hb.arenaLength]
    omega
  · rw [List.length_append, hb.runsLength]
    omega
  · dsimp only
    rw [hfrontRuns, hb.counts]
  · dsimp only
    rw [hfrontRuns]
    exact hb.noLiteral
  · dsimp only
    rw [hfrontArena, hfrontRuns]
    exact hb.emitted

end DirtybirdMiner.V114.Builder
