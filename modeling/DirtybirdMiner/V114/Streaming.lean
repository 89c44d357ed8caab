import DirtybirdMiner.V114.Columns

/-!
The streaming emitters leave runs for every position of the text, whatever the
flags are, and never refuse.
-/

namespace DirtybirdMiner.V114.Streaming

open DirtybirdMiner.Lib.Bytes
open DirtybirdMiner.Lib.Checked
open DirtybirdMiner.Lib.Buffers
open DirtybirdMiner.Lib.LexCompare
open DirtybirdMiner.V114.Model
open DirtybirdMiner.V114.Order
open DirtybirdMiner.V114.Runs
open DirtybirdMiner.V114.Columns

/-- The emitters have not refused and have emitted these positions. -/
structure Emitting (view : Stage4View) (positions : List Nat) (emit : Emit) : Prop where
  ok : emit.ok = true
  emitted : Emitted view.data view.logicalLen emit.arena emit.runs positions
  arena : emit.arena.length ≤ positions.length

theorem Emitting.permute {view : Stage4View} {positions positions' : List Nat} {emit : Emit}
    (h : Emitting view positions emit) (hperm : positions.Perm positions') :
    Emitting view positions' emit where
  ok := h.ok
  emitted := h.emitted.permute hperm
  arena := hperm.length_eq ▸ h.arena

theorem Emitting.setOrder {view : Stage4View} {positions : List Nat} {emit : Emit}
    (h : Emitting view positions emit) (order : List Nat) :
    Emitting view positions { emit with order := order } where
  ok := h.ok
  emitted := h.emitted
  arena := h.arena

theorem Emitting.andThen_eq {view : Stage4View} {positions : List Nat} {emit : Emit}
    (h : Emitting view positions emit) (next : Emit → Option Emit) :
    emit.andThen next = next emit := by
  rw [Emit.andThen, if_pos h.ok]

variable {view : Stage4View} (hlen : view.logicalLen + 3 ≤ view.data.length)
  (hmax : view.logicalLen ≤ descriptorArenaIndexCount)

section Groups

theorem load24Fast_eq (hlen : view.logicalLen + 3 ≤ view.data.length) {pos : Nat}
    (h : pos < view.logicalLen) :
    load24Fast view pos (hasLoad24Padding view) = some (keyAt view.data pos) := by
  rw [load24Fast, hasLoad24Padding, if_pos (by simpa using hlen), load24Unchecked_eq (by omega)]

include hmax in
theorem appendFusedOrderGroup_returns {key first count : Nat} {order : List Nat} (c1 : Bool)
    {positions : List Nat} {emit : Emit} (h : Emitting view positions emit) (hcount : 0 < count)
    (horder : first + count ≤ order.length)
    (hrun : RunOf view.data view.logicalLen (stage5RadixOrderKey key) (slice order first count))
    (hroom : positions.length + count ≤ view.logicalLen) :
    Returns (appendFusedOrderGroup key order first count c1 emit) fun e =>
      Emitting view (positions ++ slice order first count) e ∧ e.order = emit.order := by
  have harena := h.arena
  have hlength : (slice order first count).length = count := slice_length horder
  rw [descriptorArenaIndexCount] at hmax
  rw [appendFusedOrderGroup, if_neg (by omega)]
  split
  · rename_i hone
    obtain ⟨pos, hpos⟩ : ∃ pos, slice order first count = [pos] :=
      List.length_eq_one_iff.mp (hlength.trans hone.1)
    have hget : order[first]? = some pos := by
      have hhead : (slice order first count)[0]? = some pos := by rw [hpos]; rfl
      rwa [slice, List.getElem?_take_of_lt hcount, List.getElem?_drop, Nat.add_zero] at hhead
    rw [hpos] at hrun ⊢
    have hbound := hrun.bound pos List.mem_cons_self
    rw [hget]
    refine Returns.pure ⟨⟨h.ok, ?_, ?_⟩, rfl⟩
    · exact h.emitted.pushLiteral 1 (by omega) hrun
    · rw [List.length_append]
      exact harena.trans (Nat.le_add_right _ _)
  · rw [descriptorArenaIndexCount, if_neg (by omega), readAt_eq_some horder]
    refine Returns.pure ⟨⟨h.ok, ?_, ?_⟩, rfl⟩
    · have hpush := h.emitted.pushArena (show emit.arena.length < 2 ^ 17 by omega)
        (by omega) hrun
      rwa [hlength] at hpush
    · rw [List.length_append, List.length_append]
      omega

include hlen hmax in
theorem emitFusedLiteralRecords_returns {start count : Nat} (c1 : Bool) {positions : List Nat}
    {emit : Emit} (h : Emitting view positions emit) (hfit : start + count ≤ view.logicalLen)
    (hroom : positions.length + count ≤ view.logicalLen) :
    Returns (emitFusedLiteralRecords view start count c1 emit)
      (Emitting view (positions ++ List.range' start count)) := by
  rw [emitFusedLiteralRecords]
  have hloop := forUp_returns (f := fun rel (emit : Emit) => emit.andThen fun emit => do
      let pos := start + rel
      let key ← load24Fast view pos (hasLoad24Padding view)
      appendFusedOrderGroup key [pos] 0 1 c1 emit)
    (fun i => Emitting view (positions ++ List.range' start i)) 0 count emit (by simpa using h) ?_
  · rwa [Nat.zero_add] at hloop
  · intro rel e _ hrel he
    rw [he.andThen_eq]
    simp only [load24Fast_eq hlen (show start + rel < view.logicalLen by omega),
      Option.bind_eq_bind, Option.bind_some]
    have hrun : RunOf view.data view.logicalLen (stage5RadixOrderKey (keyAt view.data (start + rel)))
        (slice [start + rel] 0 1) := by
      refine ⟨?_, ?_, List.pairwise_singleton _ _⟩
      · intro p hp
        obtain rfl := List.mem_singleton.mp hp
        omega
      · intro p hp
        obtain rfl := List.mem_singleton.mp hp
        rw [stage5RadixOrderKey_keyAt (by omega)]
    refine (appendFusedOrderGroup_returns hmax c1 he (by decide) (by simp) hrun
      (by simp; omega)).mono ?_
    intro e' he'
    rw [List.range'_concat, ← List.append_assoc, Nat.one_mul]
    exact he'.1

end Groups

section Scans

variable {base g : Nat}

include hlen hmax in
/-- The groups of one sorted column. -/
theorem emitGroups_returns {rel : Nat} (c1 : Bool) {positions : List Nat} {emit : Emit}
    {order : List Nat} (h : Emitting view positions emit) (hrel : rel < 256)
    (hfit : base + 256 * g ≤ view.logicalLen)
    (hcol : SortedColumn view.data view.logicalLen base g rel order)
    (hroom : positions.length + g ≤ view.logicalLen) :
    Returns (forGroups (order.map (keyAt view.data)) (fun key first count emit => emit.andThen
        (appendFusedOrderGroup key order first count c1)) (order.map (keyAt view.data)).length 0 emit)
      fun e => Emitting view (positions ++ order) e ∧ e.order = emit.order := by
  refine Returns.mono (forGroups_returns (fun i e =>
    Emitting view (positions ++ order.take i) e ∧ e.order = emit.order) emit (by simpa using h) ?_) ?_
  · intro key first count e hcount hle hkeys _ he
    rw [List.length_map] at hle
    have hlength := hcol.length
    rw [he.1.andThen_eq]
    have hkey : ∀ p ∈ slice order first count, keyAt view.data p = key := by
      intro p hp
      apply hkeys
      rw [slice_map]
      exact List.mem_map_of_mem hp
    refine (appendFusedOrderGroup_returns hmax c1 he.1 hcount hle
      (hcol.runOf hrel hfit hlen hkey) ?_).mono ?_
    · rw [List.length_append, List.length_take]
      omega
    · intro e' he'
      rw [take_eq_slice, slice_add, Nat.zero_add, ← take_eq_slice, ← List.append_assoc]
      exact ⟨he'.1, he'.2.trans he.2⟩
  · intro e he
    rwa [List.length_map, List.take_length] at he

/-- The columns from `rel` on are emitted, and the one before it is sorted. -/
structure Scanned (view : Stage4View) (base g : Nat) (positions : List Nat) (rel : Nat)
    (order : List Nat) (emit : Emit) : Prop where
  emitting : Emitting view (positions ++ covered base g rel) emit
  column : 0 < rel → SortedColumn view.data view.logicalLen base g (rel - 1) order

theorem Scanned.start {positions : List Nat} {order : List Nat} {emit : Emit}
    (h : Emitting view positions emit)
    (hcol : SortedColumn view.data view.logicalLen base g 255 order) :
    Scanned view base g positions 256 order emit where
  emitting := by rwa [covered_top, List.append_nil]
  column := fun _ => hcol

theorem Scanned.finish {positions : List Nat} {order : List Nat} {emit : Emit}
    (h : Scanned view base g positions 0 order emit) :
    Emitting view (positions ++ List.range' base (256 * g)) emit := by
  rw [← covered_all]
  exact h.emitting

include hlen in
theorem stepBackAndReorder_returns {rel : Nat} {order : List Nat} (hrel : rel + 1 < 256)
    (hfit : base + 256 * g ≤ view.logicalLen)
    (hcol : SortedColumn view.data view.logicalLen base g (rel + 1) order) :
    Returns (stepBackAndReorder view.data order)
      (SortedColumn view.data view.logicalLen base g rel) := by
  have hpos : ∀ pos ∈ order, 0 < pos := fun _ => hcol.pos
  rw [stepBackAndReorder, require_eq_some hpos]
  have hbound : ∀ p ∈ order.map fun pos => pos - 1, p + 0 < view.logicalLen := by
    intro p hp
    obtain ⟨q, hq, rfl⟩ := List.mem_map.mp hp
    have hbound := hcol.bound hrel hfit hq
    omega
  have hsorted : (order.map fun pos => pos - 1).Pairwise fun p q =>
      suffix view.data view.logicalLen (p + 0 + 1) <
        suffix view.data view.logicalLen (q + 0 + 1) := by
    rw [List.pairwise_map]
    refine List.Pairwise.imp_of_mem ?_ hcol.sorted
    intro p q hp hq hlt
    have hp0 := hpos p hp
    have hq0 := hpos q hq
    rwa [Nat.add_zero, Nat.add_zero, Nat.sub_add_cancel hp0, Nat.sub_add_cancel hq0]
  refine Returns.mono (reorderByLeadingByte_returns (by omega) hbound hsorted) ?_
  intro r hr
  exact ⟨hr.1.trans hcol.stepBack, hr.2⟩

include hlen hmax in
theorem emitScanStep_returns {rel : Nat} (c1 : Bool) {positions : List Nat} {emit : Emit}
    (hbase : base % 256 = 0) (hpositions : positions.length = base)
    (hfit : base + 256 * g ≤ view.logicalLen) (hrel : rel < 256)
    (h : Scanned view base g positions (rel + 1) emit.order emit) :
    Returns (emitScanStep view c1 rel emit) fun e => Scanned view base g positions rel e.order e := by
  have hcol := h.column (by omega)
  rw [Nat.add_sub_cancel] at hcol
  have hkeys : emit.order.mapM (fun pos => load24Fast view pos (hasLoad24Padding view)) =
      some (emit.order.map (keyAt view.data)) :=
    mapM_eq_some fun p hp => load24Fast_eq hlen (hcol.bound hrel hfit hp)
  rw [emitScanStep, h.emitting.andThen_eq, hkeys]
  simp only [Option.bind_eq_bind, Option.bind_some]
  refine Returns.bind (emitGroups_returns hlen hmax c1 h.emitting hrel hfit hcol
    (room_of_covered hbase hrel hpositions hfit)) ?_
  rintro e ⟨he, horder⟩
  have hnext : Emitting view (positions ++ covered base g rel) e := by
    refine he.permute ?_
    rw [List.append_assoc]
    exact ((hcol.perm.append_left _).trans (covered_step hbase g hrel)).append_left _
  split
  · rename_i hpos
    obtain ⟨rel, rfl⟩ : ∃ k, rel = k + 1 := ⟨rel - 1, by omega⟩
    rw [horder]
    refine Returns.bind (stepBackAndReorder_returns hlen hrel hfit hcol) ?_
    intro order hcol'
    exact Returns.pure ⟨hnext.setOrder order, fun _ => hcol'⟩
  · rename_i hzero
    refine Returns.pure ⟨hnext, ?_⟩
    intro hpos
    exact absurd ⟨hpos, he.ok⟩ hzero

include hlen hmax in
theorem emitFusedGroupScan_returns (c1 : Bool) {positions : List Nat} {emit : Emit}
    (h : Emitting view positions emit) (hbase : base % 256 = 0)
    (hpositions : positions.length = base) (hfit : base + 256 * g ≤ view.logicalLen)
    (hcol : SortedColumn view.data view.logicalLen base g 255 emit.order) :
    Returns (emitFusedGroupScan view c1 emit)
      (Emitting view (positions ++ List.range' base (256 * g))) := by
  have hloop := forDown_returns (fun rel e => Scanned view base g positions rel e.order e) 256 emit
    (Scanned.start h hcol) fun rel e hrel he =>
      emitScanStep_returns hlen hmax c1 hbase hpositions hfit hrel he
  exact hloop.mono fun e he => he.finish

end Scans

section Two

variable {base : Nat}

/-- A column of two groups as a pair. -/
abbrev PairColumn (view : Stage4View) (base rel : Nat) (order : Nat × Nat) : Prop :=
  SortedColumn view.data view.logicalLen base 2 rel [order.1, order.2]

include hlen hmax in
theorem emitTwoColumn_returns {rel : Nat} (c1 : Bool) {positions : List Nat} {emit : Emit}
    {order : Nat × Nat} (h : Emitting view positions emit) (hrel : rel < 256)
    (hfit : base + 512 ≤ view.logicalLen) (hcol : PairColumn view base rel order)
    (hroom : positions.length + 2 ≤ view.logicalLen) :
    Returns (emitTwoColumn view c1 order emit)
      (Emitting view (positions ++ [order.1, order.2])) := by
  rw [emitTwoColumn, load24Fast_eq hlen (hcol.bound hrel hfit (by simp)),
    load24Fast_eq hlen (hcol.bound hrel hfit (by simp))]
  simp only [Option.bind_eq_bind, Option.bind_some]
  split
  · rename_i hkey
    have hrun : RunOf view.data view.logicalLen (stage5RadixOrderKey (keyAt view.data order.1))
        (slice [order.1, order.2] 0 2) := hcol.runOf hrel hfit hlen (by simp [slice, hkey])
    exact (appendFusedOrderGroup_returns hmax c1 h (by decide) (by simp) hrun hroom).mono
      fun e he => he.1
  · have hrun0 : RunOf view.data view.logicalLen (stage5RadixOrderKey (keyAt view.data order.1))
        (slice [order.1, order.2] 0 1) := hcol.runOf hrel hfit hlen (by simp [slice])
    have hrun1 : RunOf view.data view.logicalLen (stage5RadixOrderKey (keyAt view.data order.2))
        (slice [order.1, order.2] 1 1) := hcol.runOf hrel hfit hlen (by simp [slice])
    refine Returns.bind (appendFusedOrderGroup_returns hmax c1 h (by decide) (by simp) hrun0
      (by omega)) ?_
    intro e he
    rw [he.1.andThen_eq]
    refine (appendFusedOrderGroup_returns hmax c1 he.1 (by decide) (by simp) hrun1
      (by simp [slice]; omega)).mono ?_
    intro e' he'
    simpa [slice] using he'.1

include hlen in
theorem stepBackTwo_returns {rel : Nat} {order : Nat × Nat} (hrel : rel + 1 < 256)
    (hfit : base + 512 ≤ view.logicalLen) (hcol : PairColumn view base (rel + 1) order) :
    Returns (stepBackTwo view order) (PairColumn view base rel) := by
  obtain ⟨p, q⟩ := order
  have hp0 := hcol.pos (show p ∈ [p, q] by simp)
  have hq0 := hcol.pos (show q ∈ [p, q] by simp)
  have hp := hcol.bound hrel hfit (show p ∈ [p, q] by simp)
  have hq := hcol.bound hrel hfit (show q ∈ [p, q] by simp)
  obtain ⟨b, hb, hsb⟩ := suffix_cons (show view.logicalLen ≤ view.data.length by omega)
    (show p - 1 < view.logicalLen by omega)
  obtain ⟨c, hc, hsc⟩ := suffix_cons (show view.logicalLen ≤ view.data.length by omega)
    (show q - 1 < view.logicalLen by omega)
  have hperm := hcol.stepBack
  have hlt : suffix view.data view.logicalLen p < suffix view.data view.logicalLen q := by
    simpa using hcol.sorted
  rw [Nat.sub_add_cancel hp0] at hsb
  rw [Nat.sub_add_cancel hq0] at hsc
  rw [stepBackTwo, require_eq_some ⟨hp0, hq0⟩]
  simp only [Option.bind_eq_bind, Option.bind_some, hb, hc]
  refine Returns.pure ?_
  split
  · rename_i hgt
    refine ⟨(List.Perm.swap _ _ _).trans hperm, ?_⟩
    simp only [List.pairwise_pair, hsb, hsc, List.cons_lt_cons_iff]
    exact .inl (UInt8.lt_iff_toNat_lt.mp hgt)
  · rename_i hle
    refine ⟨hperm, ?_⟩
    simp only [List.pairwise_pair, hsb, hsc, List.cons_lt_cons_iff]
    rw [gt_iff_lt, UInt8.lt_iff_toNat_lt] at hle
    rcases Nat.lt_or_ge b.toNat c.toNat with hbc | hbc
    · exact .inl hbc
    · exact .inr ⟨by omega, hlt⟩

include hlen hmax in
theorem emitFusedTwoStep_returns {rel : Nat} (c1 : Bool) {positions : List Nat}
    {s : (Nat × Nat) × Emit} (hbase : base % 256 = 0) (hpositions : positions.length = base)
    (hfit : base + 512 ≤ view.logicalLen) (hrel : rel < 256)
    (h : Scanned view base 2 positions (rel + 1) [s.1.1, s.1.2] s.2) :
    Returns (emitFusedTwoStep view c1 rel s) fun r =>
      Scanned view base 2 positions rel [r.1.1, r.1.2] r.2 := by
  have hcol := h.column (by omega)
  rw [Nat.add_sub_cancel] at hcol
  rw [emitFusedTwoStep, if_pos h.emitting.ok]
  refine Returns.bind (emitTwoColumn_returns hlen hmax c1 h.emitting hrel hfit hcol
    (room_of_covered hbase hrel hpositions hfit)) ?_
  intro e he
  have hnext : Emitting view (positions ++ covered base 2 rel) e := by
    refine he.permute ?_
    rw [List.append_assoc]
    exact ((hcol.perm.append_left _).trans (covered_step hbase 2 hrel)).append_left _
  split
  · rename_i hpos
    obtain ⟨rel, rfl⟩ : ∃ k, rel = k + 1 := ⟨rel - 1, by omega⟩
    refine Returns.bind (stepBackTwo_returns hlen hrel hfit hcol) ?_
    intro order hcol'
    exact Returns.pure ⟨hnext, fun _ => hcol'⟩
  · rename_i hzero
    refine Returns.pure ⟨hnext, ?_⟩
    intro hpos
    exact absurd ⟨hpos, he.ok⟩ hzero

include hlen hmax in
theorem emitFusedTwo_returns {start : Nat} (c1 : Bool) {positions : List Nat} {emit : Emit}
    (h : Emitting view positions emit) (hpositions : positions.length = 256 * start)
    (hfit : 256 * start + 512 ≤ view.logicalLen) :
    Returns (emitFusedTwo view start c1 emit)
      (Emitting view (positions ++ List.range' (256 * start) 512)) := by
  have hbase : start <<< 8 = 256 * start := by rw [Nat.shiftLeft_eq, Nat.mul_comm]
  have hcolumn : column (256 * start) 2 255 = [256 * start + 255, 256 * start + 511] := by
    simp [column, List.range_succ]
  rw [emitFusedTwo, hbase, compareSuffixesS4_eq (by omega) (by omega) (by omega)]
  simp only [Option.bind_eq_bind, Option.bind_some, lexCmp_eq_lt_iff]
  refine Returns.bind (forDown_returns (fun rel s =>
    Scanned view (256 * start) 2 positions rel [s.1.1, s.1.2] s.2) 256 _ (Scanned.start h ?_)
    fun rel s hrel hs => emitFusedTwoStep_returns hlen hmax c1 (by omega) hpositions hfit hrel hs) ?_
  · split
    · rename_i hlt
      refine ⟨?_, by simpa using hlt⟩
      rw [hcolumn]
      exact List.Perm.swap _ _ _
    · rename_i hge
      refine ⟨by rw [hcolumn], ?_⟩
      rw [List.pairwise_pair]
      dsimp only
      refine lt_of_le_of_ne (not_lt.mp hge) fun heq => ?_
      have := suffix_inj (by omega) (by omega) (by omega) heq
      omega
  · intro s hs
    exact Returns.pure hs.finish

end Two

section AllGroups

include hlen in
theorem sortBy_compareSuffixesS4 {base g : Nat} (hfit : base + 256 * g ≤ view.logicalLen) :
    Returns (sortBy (compareSuffixesS4 view) (seedOrder base g))
      (SortedColumn view.data view.logicalLen base g 255) :=
  sortBy_seedOrder (by omega) hfit fun p hp q hq => compareSuffixesS4_eq (by omega) hp.le hq.le

include hlen hmax in
theorem emitFusedShort_returns {start stop : Nat} (c1 : Bool) {positions : List Nat} {emit : Emit}
    (h : Emitting view positions emit) (hpositions : positions.length = 256 * start)
    (hlt : start < stop) (hshort : stop - start ≤ stage4ShortRunMax)
    (hfit : 256 * stop ≤ view.logicalLen) :
    Returns (emitFusedShort view start stop c1 emit)
      (Emitting view (positions ++ List.range' (256 * start) (256 * (stop - start)))) := by
  have hbase : start <<< 8 = 256 * start := by rw [Nat.shiftLeft_eq, Nat.mul_comm]
  rw [emitFusedShort, if_neg (by omega)]
  split
  · rename_i htwo
    rw [htwo]
    exact emitFusedTwo_returns hlen hmax c1 h hpositions (by omega)
  · rw [hbase]
    refine Returns.bind (sortBy_compareSuffixesS4 hlen (by omega)) ?_
    intro order hcol
    exact emitFusedGroupScan_returns hlen hmax c1 (h.setOrder order) (by omega) hpositions (by omega)
      hcol

include hlen hmax in
theorem emitFusedFullGroupRun_returns {start stop : Nat} (c1 : Bool) {positions : List Nat}
    {emit : Emit} (h : Emitting view positions emit) (hpositions : positions.length = 256 * start)
    (hlt : start < stop) (hfit : 256 * stop ≤ view.logicalLen) :
    Returns (emitFusedFullGroupRun view start stop c1 emit)
      (Emitting view (positions ++ List.range' (256 * start) (256 * (stop - start)))) := by
  have hbase : start <<< 8 = 256 * start := by rw [Nat.shiftLeft_eq, Nat.mul_comm]
  have hgroups : stop - start ≤ stage4MaxGroupCount := by
    rw [stage4MaxGroupCount, Nat.shiftRight_eq_div_pow]
    omega
  rw [emitFusedFullGroupRun, if_neg (by omega), if_neg (by omega)]
  split
  · rename_i hone
    rw [hbase, hone]
    exact emitFusedLiteralRecords_returns hlen hmax c1 h (by omega) (by omega)
  · split
    · rename_i hshort
      exact emitFusedShort_returns hlen hmax c1 h hpositions hlt hshort hfit
    · rw [hbase]
      refine Returns.bind (sortBy_compareSuffixesS4 hlen (by omega)) ?_
      intro order hcol
      exact emitFusedGroupScan_returns hlen hmax c1 (h.setOrder order) (by omega) hpositions
        (by omega) hcol

include hlen hmax in
/-- Whatever the flags are, the runs of groups cover all full groups. -/
theorem emitFusedGroups_returns (c1 : Bool) {emit : Emit} (h : Emitting view [] emit)
    (hflags : view.logicalLen >>> 8 < view.flags.length) :
    Returns (emitFusedGroups view c1 (0, emit)) fun s =>
      Emitting view (List.range (256 * (view.logicalLen >>> 8))) s.2 := by
  have hfull : view.logicalLen >>> 8 = view.logicalLen / 256 := by
    rw [Nat.shiftRight_eq_div_pow]
  rw [hfull] at hflags ⊢
  rw [emitFusedGroups, hfull]
  refine Returns.mono (forUp_returns (fun group (s : Nat × Emit) => s.1 < group ∧
    (group = 1 + view.logicalLen / 256 → s.1 = view.logicalLen / 256) ∧
    Emitting view (List.range (256 * s.1)) s.2) 1 (view.logicalLen / 256) (0, emit)
    ⟨Nat.zero_lt_one, fun h => by dsimp only; omega, by simpa using h⟩ ?_) ?_
  · rintro group ⟨start, e⟩ hlo hhi ⟨hstart, -, he⟩
    dsimp only at hstart he ⊢
    rw [if_pos he.ok, List.getElem?_eq_getElem (show group < view.flags.length by omega)]
    simp only [Option.bind_eq_bind, Option.bind_some]
    split
    · refine Returns.bind (emitFusedFullGroupRun_returns hlen hmax c1 he (by simp) hstart
        (by omega)) ?_
      intro e' he'
      refine Returns.pure ⟨by dsimp only; omega, by dsimp only; omega, ?_⟩
      rwa [range_append_range', ← Nat.mul_add, Nat.add_sub_cancel' hstart.le] at he'
    · rename_i hflag
      refine Returns.pure ⟨by dsimp only; omega, ?_, he⟩
      intro hgroup
      exact absurd (.inr (by omega)) hflag
  · rintro s ⟨-, hs, hemit⟩
    rwa [hs (Nat.add_comm _ _ ▸ rfl)] at hemit

end AllGroups

theorem runFusedEmit_returns {data flags : List UInt8} {n : Nat} (c1 : Bool)
    (scratch : FusedScratch) (hpos : 0 < n) (hmax : n ≤ descriptorArenaIndexCount)
    (hlen : n + 3 ≤ data.length) (hflags : n >>> 8 < flags.length) :
    Returns (runFusedEmit data n flags c1 scratch) fun r =>
      r.1 = true ∧ Emitted data n r.2.arenaPositions r.2.runs (List.range n) := by
  rw [runFusedEmit, if_neg (by omega), if_neg (by omega), if_neg (by omega)]
  have hstart : Emitting { logicalLen := n, flags := flags, data := data } []
      { runs := [], arena := [], order := scratch.order, ok := true } :=
    ⟨rfl, Emitted.nil, le_rfl⟩
  refine Returns.bind (emitFusedGroups_returns hlen hmax c1 hstart hflags) ?_
  rintro ⟨start, emit⟩ hemit
  dsimp only at hemit
  have hfull : n >>> 8 = n / 256 := by rw [Nat.shiftRight_eq_div_pow]
  have htail : n &&& 0xff = n % 256 := by
    rw [show 0xff = 2 ^ 8 - 1 by rfl, Nat.and_two_pow_sub_one_eq_mod]
  simp only [hemit.andThen_eq, hfull, htail, Nat.shiftLeft_eq]
  rw [hfull] at hemit
  refine Returns.bind (emitFusedLiteralRecords_returns hlen hmax c1 hemit (by dsimp only; omega)
    (by simp; omega)) ?_
  intro e he
  refine Returns.pure ⟨he.ok, ?_⟩
  have hall := he.emitted
  rwa [Nat.mul_comm (n / 256), range_append_range', Nat.div_add_mod] at hall

end DirtybirdMiner.V114.Streaming
