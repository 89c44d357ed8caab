import Mathlib.Data.List.SplitBy
import DirtybirdMiner.V114.Builder

/-!
What `emit_group_run` appends column by column: the runs of a column are the maximal blocks of
equal keys, in the order of the suffixes, and the shortcuts for equal columns change nothing.
-/

namespace DirtybirdMiner.V114.ColumnRuns

open DirtybirdMiner.Lib.Bytes
open DirtybirdMiner.Lib.Checked
open DirtybirdMiner.Lib.Buffers
open DirtybirdMiner.Lib.Sorting
open DirtybirdMiner.V114.Model
open DirtybirdMiner.V114.Order
open DirtybirdMiner.V114.Columns
open DirtybirdMiner.V114.Builder

section Appending

variable {data : List UInt8}

/-- The runs of blocks of positions that lie in the arena from `start` on. -/
def runsOfBlocks (data : List UInt8) : Nat → List (List Nat) → List Stage5Run
  | _, [] => []
  | start, block :: blocks =>
      makeStage5Run (orderKeyAt data (block.headD 0)) start block.length false ::
        runsOfBlocks data (start + block.length) blocks

theorem runsOfBlocks_append (start : Nat) (blocks blocks' : List (List Nat)) :
    runsOfBlocks data start (blocks ++ blocks') = runsOfBlocks data start blocks ++
      runsOfBlocks data (start + blocks.flatten.length) blocks' := by
  induction blocks generalizing start with
  | nil => rfl
  | cons block blocks ih =>
      rw [List.cons_append, runsOfBlocks, ih, runsOfBlocks, List.cons_append, List.flatten_cons,
        List.length_append, Nat.add_assoc]

/-- The builder after runs for these blocks. -/
structure Appended (data : List UInt8) (blocks : List (List Nat))
    (builder builder' : MaterializedBuilder) : Prop where
  arenaLength : builder'.arena.length = builder.arena.length
  runsLength : builder'.runs.length = builder.runs.length
  arenaLen : builder'.arenaLen = builder.arenaLen + blocks.flatten.length
  runsLen : builder'.runsLen = builder.runsLen + blocks.length
  arena : builder'.arena.take builder'.arenaLen =
    builder.arena.take builder.arenaLen ++ blocks.flatten
  runs : builder'.runs.take builder'.runsLen = builder.runs.take builder.runsLen ++
    runsOfBlocks data builder.arenaLen blocks

theorem Appended.refl (builder : MaterializedBuilder) : Appended data [] builder builder where
  arenaLength := rfl
  runsLength := rfl
  arenaLen := rfl
  runsLen := rfl
  arena := (List.append_nil _).symm
  runs := (List.append_nil _).symm

theorem Appended.trans {blocks blocks' : List (List Nat)}
    {builder builder' builder'' : MaterializedBuilder}
    (h : Appended data blocks builder builder') (h' : Appended data blocks' builder' builder'') :
    Appended data (blocks ++ blocks') builder builder'' where
  arenaLength := h'.arenaLength.trans h.arenaLength
  runsLength := h'.runsLength.trans h.runsLength
  arenaLen := by
    rw [h'.arenaLen, h.arenaLen, List.flatten_append, List.length_append, Nat.add_assoc]
  runsLen := by rw [h'.runsLen, h.runsLen, List.length_append, Nat.add_assoc]
  arena := by rw [h'.arena, h.arena, List.flatten_append, List.append_assoc]
  runs := by
    rw [h'.runs, h.runs, h.arenaLen, runsOfBlocks_append, List.append_assoc]

/-- The buffers of the builder and the room that is left for more positions. -/
structure Room (n count : Nat) (builder : MaterializedBuilder) : Prop where
  arenaLength : builder.arena.length = n + materializedSaTailWords
  runsLength : builder.runs.length = n
  arenaLen : builder.arenaLen + count ≤ n
  runsLen : builder.runsLen + count ≤ n

theorem length_le_flatten {blocks : List (List Nat)} (h : [] ∉ blocks) :
    blocks.length ≤ blocks.flatten.length := by
  induction blocks with
  | nil => rfl
  | cons block blocks ih =>
      rw [List.mem_cons, not_or] at h
      have hpos := List.length_pos_iff.mpr (Ne.symm h.1)
      have hrest := ih h.2
      rw [List.flatten_cons, List.length_append, List.length_cons]
      omega

theorem Room.after {n count : Nat} {blocks : List (List Nat)}
    {builder builder' : MaterializedBuilder} (h : Room n (blocks.flatten.length + count) builder)
    (happended : Appended data blocks builder builder') (hne : [] ∉ blocks) :
    Room n count builder' := by
  have hle := length_le_flatten hne
  have harena := h.arenaLen
  have hruns := h.runsLen
  refine ⟨happended.arenaLength.trans h.arenaLength, happended.runsLength.trans h.runsLength,
    ?_, ?_⟩
  · rw [happended.arenaLen]
    omega
  · rw [happended.runsLen]
    omega

end Appending

section Blocks

variable {data : List UInt8} {n : Nat}

/-- The maximal blocks of neighbours with the same key. -/
def keyBlocks (data : List UInt8) (col : List Nat) : List (List Nat) :=
  col.splitBy fun p q => keyAt data p == keyAt data q

theorem keyBlocks_equal {col : List Nat} {key : Nat} (hne : col ≠ [])
    (h : ∀ p ∈ col, keyAt data p = key) : keyBlocks data col = [col] := by
  refine List.splitBy_of_isChain hne (List.Pairwise.isChain ?_)
  apply List.pairwise_of_forall_mem_list
  intro p hp q hq
  rw [beq_iff_eq, h p hp, h q hq]

/-- One more block, behind a change of the key. -/
theorem keyBlocks_take_add {col : List Nat} {first count key : Nat} (hcount : 0 < count)
    (hle : first + count ≤ col.length) (hbreak : Break (col.map (keyAt data)) first)
    (hkey : ∀ p ∈ slice col first count, keyAt data p = key) :
    keyBlocks data (col.take (first + count)) =
      keyBlocks data (col.take first) ++ [slice col first count] := by
  have hlength : (slice col first count).length = count := slice_length (by omega)
  have hne : slice col first count ≠ [] := by
    rw [← List.length_pos_iff, hlength]
    exact hcount
  rw [← keyBlocks_equal hne hkey, take_eq_slice, slice_add, Nat.zero_add, ← take_eq_slice]
  apply List.splitBy_append
  intro p hp q hq
  rw [List.getLast?_eq_getElem?, List.length_take, Nat.min_eq_left (by omega)] at hp
  rw [List.head?_eq_getElem?, slice, List.getElem?_take_of_lt hcount, List.getElem?_drop,
    Nat.add_zero] at hq
  rw [beq_eq_false_iff_ne]
  intro hsame
  rcases Nat.eq_zero_or_pos first with rfl | hpos
  · rw [List.take_zero] at hp
    cases hp
  · rw [List.getElem?_take_of_lt (by omega)] at hp
    refine hbreak (first - 1) (by omega) (by rw [List.length_map]; omega) ?_
    rw [List.getElem?_map, List.getElem?_map, hp, hq, Option.map_some, Option.map_some, hsame]

/-- Blocks whose neighbours have different keys in a list of ascending keys. -/
theorem increasing_of_isChain {key : Nat → Nat} {blocks : List (List Nat)} (hne : [] ∉ blocks)
    (hsorted : blocks.flatten.Pairwise fun p q => key p ≤ key q)
    (hchain : blocks.IsChain fun B C => ∀ p ∈ B, ∀ q ∈ C, key p ≠ key q) :
    blocks.Pairwise fun B C => ∀ p ∈ B, ∀ q ∈ C, key p < key q := by
  induction blocks with
  | nil => exact List.Pairwise.nil
  | cons B blocks ih =>
      rw [List.mem_cons, not_or] at hne
      rw [List.flatten_cons, List.pairwise_append] at hsorted
      have hrest := ih hne.2 hsorted.2.1 hchain.tail
      refine List.pairwise_cons.mpr ⟨?_, hrest⟩
      intro C hC p hp q hq
      cases blocks with
      | nil => cases hC
      | cons D blocks =>
          have hle := hsorted.2.2 p hp
          have hD : ∀ d ∈ D, key p < key d := by
            intro d hd
            refine lt_of_le_of_ne (hle d (by simp [hd])) ?_
            exact List.IsChain.rel hchain p hp d hd
          rcases List.mem_cons.mp hC with rfl | hC
          · exact hD q hq
          · obtain ⟨d, hd⟩ := List.exists_mem_of_ne_nil D
              (fun h => hne.2 (by rw [h]; exact List.mem_cons_self))
            exact (hD d hd).trans ((List.pairwise_cons.mp hrest).1 C hC d hd q hq)

theorem keyAt_eq_of_mem_keyBlocks {col block : List Nat} (h : block ∈ keyBlocks data col)
    {p q : Nat} (hp : p ∈ block) (hq : q ∈ block) : keyAt data p = keyAt data q := by
  have hchain : block.IsChain fun p q => keyAt data p = keyAt data q :=
    (List.isChain_of_mem_splitBy h).imp fun p q hpq => beq_iff_eq.mp hpq
  have : Trans (fun p q => keyAt data p = keyAt data q) (fun p q => keyAt data p = keyAt data q)
      (fun p q => keyAt data p = keyAt data q) := ⟨fun hpq hqr => hpq.trans hqr⟩
  have : Std.Symm fun p q => keyAt data p = keyAt data q := ⟨fun _ _ hpq => hpq.symm⟩
  exact List.Pairwise.forall_of_forall (R := fun p q => keyAt data p = keyAt data q)
    (fun _ _ => rfl) hchain.pairwise hp hq

/-- Neighbouring blocks have different keys. -/
theorem keyBlocks_isChain (data : List UInt8) (col : List Nat) :
    (keyBlocks data col).IsChain fun B C => ∀ p ∈ B, ∀ q ∈ C, keyAt data p ≠ keyAt data q := by
  have hchain := List.isChain_getLast_head_splitBy
    (fun p q => keyAt data p == keyAt data q) col
  refine hchain.imp_of_mem_imp ?_
  rintro B C hB hC ⟨hneB, hneC, hdiffer⟩ p hp q hq
  rw [beq_eq_false_iff_ne] at hdiffer
  rw [keyAt_eq_of_mem_keyBlocks hB hp (List.getLast_mem hneB),
    keyAt_eq_of_mem_keyBlocks hC hq (List.head_mem hneC)]
  exact hdiffer

theorem keyAt_eq_of_orderKeyAt {p q : Nat} (hp : p + 3 ≤ data.length) (hq : q + 3 ≤ data.length)
    (h : orderKeyAt data p = orderKeyAt data q) : keyAt data p = keyAt data q := by
  have hlength : (slice data p 3).reverse.length = (slice data q 3).reverse.length := by
    rw [List.length_reverse, List.length_reverse, slice_length hp, slice_length hq]
  have hreverse := leValue_inj hlength h
  rw [keyAt, keyAt, List.reverse_injective hreverse]

/-- Behind a zero tail the keys of the blocks of a sorted column ascend. -/
theorem keyBlocks_increasing {col : List Nat} (hzero : ZeroTail data n)
    (hbound : ∀ p ∈ col, p < n)
    (hsorted : col.Pairwise fun p q => suffix data n p < suffix data n q) :
    (keyBlocks data col).Pairwise fun B C =>
      ∀ p ∈ B, ∀ q ∈ C, orderKeyAt data p < orderKeyAt data q := by
  have hlen := hzero.length_le
  have hflatten : (keyBlocks data col).flatten = col := List.flatten_splitBy _ _
  have hmem : ∀ B ∈ keyBlocks data col, ∀ p ∈ B, p < n := by
    intro B hB p hp
    apply hbound
    rw [← hflatten]
    exact List.mem_flatten_of_mem hB hp
  apply increasing_of_isChain
  · exact List.nil_notMem_splitBy _ _
  · rw [hflatten]
    refine hsorted.imp_of_mem ?_
    intro p q hp hq hlt
    by_contra hgt
    exact lt_asymm hlt (suffix_lt_of_orderKeyAt_lt hzero hlen (hbound q hq).le (hbound p hp).le
      (Nat.lt_of_not_le hgt))
  · refine (keyBlocks_isChain data col).imp_of_mem_imp ?_
    intro B C hB hC hdiffer p hp q hq hsame
    have hpn := hmem B hB p hp
    have hqn := hmem C hC q hq
    exact hdiffer p hp q hq (keyAt_eq_of_orderKeyAt (by omega) (by omega) hsame)

/-- Behind a zero tail the keys that are loaded are those of the suffixes. -/
theorem keyAt_eq_textKey (hzero : ZeroTail data n) {p : Nat} (hp : p < n) :
    keyAt data p = textKey data n p := by
  have hlen := hzero.length_le
  have htake : data.take (n + 3) = data.take n ++ [0, 0, 0] := by
    rw [take_eq_slice, slice_add, Nat.zero_add, ← take_eq_slice, hzero]
  have hslice : slice (data.take (n + 3)) p 3 = slice data p 3 := slice_take (by omega)
  rw [textKey, ← load24Padded_zeros, ← htake,
    load24Padded_eq (by rw [List.length_take]; omega), keyAt, keyAt, hslice]

end Blocks

variable {data : List UInt8} {n : Nat} (hlen : n + 3 ≤ data.length)
  (hmax : n ≤ descriptorArenaIndexCount)

section Columns

variable {base g rel : Nat} {order : List Nat}

include hlen hmax in
theorem appendRun_appends {builder : MaterializedBuilder} {first count more : Nat}
    (hroom : Room n (count + more) builder) (hrel : rel < 256) (hfit : base + 256 * g ≤ n)
    (horder : Origins data n base g rel order) (hcount : 0 < count) (hle : first + count ≤ g) :
    Returns (appendRun data order first count rel builder)
      (Appended data [slice ((order.take g).map (· + rel)) first count] builder) := by
  have hmax' := hmax
  rw [descriptorArenaIndexCount] at hmax'
  have horderLength := horder.length
  have hruns := hroom.runsLen
  have harenaLen := hroom.arenaLen
  have hg : g ≤ stage4MaxGroupCount := by
    rw [stage4MaxGroupCount, descriptorArenaIndexCount, Nat.shiftRight_eq_div_pow]
    omega
  have hlength : (slice ((order.take g).map (· + rel)) first count).length = count := by
    apply slice_length
    rw [horder.col.length]
    exact hle
  have hhead : (slice ((order.take g).map (· + rel)) first count)[0]? =
      some (order[first] + rel) := by
    rw [slice, List.getElem?_take_of_lt hcount, List.getElem?_drop, List.getElem?_map,
      List.getElem?_take_of_lt (by omega), Nat.add_zero, List.getElem?_eq_getElem (by omega)]
    rfl
  have hheadD : (slice ((order.take g).map (· + rel)) first count).headD 0 =
      order[first] + rel := by
    rw [List.headD_eq_head?_getD, List.head?_eq_getElem?, hhead]
    rfl
  have hbound := horder.col.bound hrel hfit (mem_of_mem_slice (List.mem_of_getElem? hhead))
  rw [appendRun]
  refine Returns.bind (copyOrigins_returns rel (by rw [hroom.arenaLength]; omega) (by omega)) ?_
  rintro arena ⟨harena, hwritten⟩
  rw [List.getElem?_eq_getElem (show first < order.length by omega)]
  simp only [Option.bind_eq_bind, Option.bind_some]
  rw [load24Unchecked_eq (by omega), Option.bind_some, stage5RadixOrderKey_keyAt (by omega)]
  rw [horder.slice_eq hrel hfit (by omega) hle] at hwritten
  have hpush : builder.runsLen + [makeStage5Run (orderKeyAt data (order[first] + rel))
      builder.arenaLen count false].length ≤ builder.runs.length := by
    rw [hroom.runsLength, List.length_singleton]
    omega
  have htake := take_copyAt hpush
  rw [List.length_singleton] at htake
  rw [MaterializedBuilder.pushRun, writeAt_eq_some hpush]
  refine Returns.pure ⟨harena, copyAt_length hpush, ?_, rfl, ?_, ?_⟩
  · rw [List.flatten_singleton, hlength]
  · rw [List.flatten_singleton]
    exact hwritten
  · rw [runsOfBlocks, runsOfBlocks, hheadD, hlength]
    exact htake

theorem column_map_ne_nil (hg : 0 < g) (horder : Origins data n base g rel order) :
    (order.take g).map (· + rel) ≠ [] := by
  rw [← List.length_pos_iff, horder.col.length]
  exact hg

include hlen in
theorem live_keys (hrel : rel < 256) (hfit : base + 256 * g ≤ n)
    (horder : Origins data n base g rel order) :
    (order.take g).mapM (fun origin => load24Unchecked data (origin + rel)) =
      some (((order.take g).map (· + rel)).map (keyAt data)) := by
  rw [List.map_map]
  apply mapM_eq_some
  intro origin horigin
  have hbound := horder.col.bound hrel hfit (List.mem_map_of_mem (f := (· + rel)) horigin)
  exact load24Unchecked_eq (by omega)

include hlen in
/-- The general path: the scan over the keys of the column. -/
theorem emitColumn_general {equalColumns : List Bool} (hrel : rel < 256)
    (hfit : base + 256 * g ≤ n) (horder : Origins data n base g rel order)
    (builder : MaterializedBuilder)
    (h : ¬(rel ≤ 253 ∧ equalColumns.getD rel false ∧ equalColumns.getD (rel + 1) false ∧
      equalColumns.getD (rel + 2) false)) :
    emitColumn data equalColumns g rel order builder =
      forGroups (((order.take g).map (· + rel)).map (keyAt data))
        (fun _ first count builder => appendRun data order first count rel builder)
        (((order.take g).map (· + rel)).map (keyAt data)).length 0 builder := by
  have hle : 0 + g ≤ order.length := by
    have htake := horder.take_length
    rw [List.length_take] at htake
    omega
  rw [emitColumn, if_neg h, readAt_eq_some hle, ← take_eq_slice]
  simp only [Option.bind_eq_bind, Option.bind_some, live_keys hlen hrel hfit horder]

include hlen in
/-- The single run for three equal columns is what the scan gives. -/
theorem emitColumn_eq {equalColumns : List Bool} (hrel : rel < 256) (hg : 0 < g)
    (hfit : base + 256 * g ≤ n) (hmarked : MarkedEqual data base g equalColumns)
    (horder : Origins data n base g rel order) (builder : MaterializedBuilder) :
    emitColumn data equalColumns g rel order builder =
      emitColumn data [] g rel order builder := by
  rw [@emitColumn_general _ _ hlen _ _ _ _ [] hrel hfit horder builder (by simp)]
  by_cases heq : rel ≤ 253 ∧ equalColumns.getD rel false ∧ equalColumns.getD (rel + 1) false ∧
      equalColumns.getD (rel + 2) false
  · have hkeys : ∀ k ∈ ((order.take g).map (· + rel)).map (keyAt data),
        k = keyAt data (base + rel) := by
      intro k hk
      rw [List.map_map] at hk
      obtain ⟨origin, horigin, rfl⟩ := List.mem_map.mp hk
      exact keyAt_of_equal (hmarked _ (by omega) heq.2.1) (hmarked _ (by omega) heq.2.2.1)
        (hmarked _ (by omega) heq.2.2.2) horder.perm horigin
    have hne : ((order.take g).map (· + rel)).map (keyAt data) ≠ [] := by
      rw [Ne, List.map_eq_nil_iff]
      exact column_map_ne_nil hg horder
    rw [forGroups_equal hne hkeys, emitColumn, if_pos heq, List.length_map, horder.col.length]
  · exact emitColumn_general hlen hrel hfit horder builder heq

include hlen hmax in
/-- The runs of a column are its maximal blocks of equal keys. -/
theorem emitColumn_appends {equalColumns : List Bool} {builder : MaterializedBuilder} {more : Nat}
    (hroom : Room n (g + more) builder) (hrel : rel < 256) (hg : 0 < g)
    (hfit : base + 256 * g ≤ n) (hmarked : MarkedEqual data base g equalColumns)
    (horder : Origins data n base g rel order) :
    Returns (emitColumn data equalColumns g rel order builder)
      (Appended data (keyBlocks data ((order.take g).map (· + rel))) builder) := by
  have hlength : ((order.take g).map (· + rel)).length = g := horder.col.length
  have hflatten : ∀ col, (keyBlocks data col).flatten = col := fun col => List.flatten_splitBy _ _
  rw [emitColumn_eq hlen hrel hg hfit hmarked horder,
    emitColumn_general hlen hrel hfit horder builder (by simp)]
  refine Returns.mono (forGroups_returns (fun i =>
    Appended data (keyBlocks data (((order.take g).map (· + rel)).take i)) builder) builder
    (Appended.refl builder) ?_) ?_
  · intro key first count b hcount hle hsame hbreak hb
    rw [List.length_map, hlength] at hle
    have hkey : ∀ p ∈ slice ((order.take g).map (· + rel)) first count, keyAt data p = key := by
      intro p hp
      apply hsame
      rw [slice_map]
      exact List.mem_map_of_mem hp
    have hroom' : Room n (count + (g - first - count + more)) b := by
      refine Room.after ?_ hb (List.nil_notMem_splitBy _ _)
      rw [hflatten, List.length_take, hlength, Nat.min_eq_left (by omega)]
      convert hroom using 1
      omega
    refine (appendRun_appends hlen hmax hroom' hrel hfit horder hcount hle).mono ?_
    intro b' hb'
    rw [keyBlocks_take_add hcount (by omega) hbreak hkey]
    exact hb.trans hb'
  · intro b hb
    rwa [List.length_map, List.take_length] at hb

/-- Bytes that agree keep their order. -/
theorem reorderPrefix_equal (hrel : rel + 1 < 256) (hlen : n + 3 ≤ data.length)
    (hfit : base + 256 * g ≤ n) (horder : Origins data n base g (rel + 1) order)
    (heq : EqualColumn data base g rel) : reorderPrefix data g rel order = some order := by
  have htake := horder.take_length
  have hg : 0 + g ≤ order.length := by
    rw [List.length_take] at htake
    omega
  have hbyte : ∀ p ∈ order.take g, data[p + rel]? = data[base + rel]? := by
    intro p hp
    exact heq.byte horder.perm hp
  have hsame : reorderByLeadingByte data rel (order.take g) = some (order.take g) := by
    apply insertionSort_of_never
    intro p hp q hq
    obtain ⟨chunk, hchunk, rfl⟩ := mem_column.mp (horder.perm.mem_iff.mp hp)
    have hsome : data[base + rel]? = some data[base + rel] :=
      List.getElem?_eq_getElem (by omega)
    rw [hbyte _ hp, hbyte q hq, hsome]
    simp
  have hwrite : 0 + (order.take g).length ≤ order.length := by
    rw [htake]
    exact hg
  have hcopy : copyAt order 0 (order.take g) = order := by
    rw [copyAt, List.take_zero, List.nil_append, htake, Nat.zero_add]
    exact List.take_append_drop g order
  rw [reorderPrefix, readAt_eq_some hg, ← take_eq_slice, Option.bind_eq_bind, Option.bind_some,
    hsame, Option.bind_some, writeAt_eq_some hwrite, hcopy]

include hlen in
/-- A step with the shortcuts for equal columns does what the general one does. -/
theorem emitGroupRunStep_eq {equalColumns : List Bool} {s : List Nat × MaterializedBuilder}
    (hrel : rel < 256) (hg : 0 < g) (hfit : base + 256 * g ≤ n)
    (hmarked : MarkedEqual data base g equalColumns) (horder : Origins data n base g rel s.1) :
    emitGroupRunStep data equalColumns g rel s = emitGroupRunStep data [] g rel s := by
  rw [emitGroupRunStep, emitGroupRunStep, emitColumn_eq hlen hrel hg hfit hmarked horder]
  congr 1
  funext builder
  rcases Nat.eq_zero_or_pos rel with rfl | hpos
  · rw [if_neg (fun h => Nat.lt_irrefl 0 h.1), if_neg (fun h => Nat.lt_irrefl 0 h.1)]
  · rw [if_pos (show rel > 0 ∧ ([] : List Bool).getD (rel - 1) false = false from ⟨hpos, rfl⟩)]
    split
    · rfl
    · rename_i hskip
      obtain ⟨rel, rfl⟩ : ∃ k, rel = k + 1 := ⟨rel - 1, by omega⟩
      have hequal : equalColumns.getD rel false = true :=
        eq_true_of_ne_false fun hfalse => hskip ⟨hpos, hfalse⟩
      rw [Nat.add_sub_cancel,
        reorderPrefix_equal hrel hlen hfit horder (hmarked rel (by omega) hequal)]
      rfl

/-- What a step finds and appends. -/
structure ColumnStep (data : List UInt8) (n base g rel : Nat)
    (s s' : List Nat × MaterializedBuilder) : Prop where
  groups : (s.1.take g).Perm (column base g 0)
  sorted : (s.1.take g).Pairwise fun p q => suffix data n (p + rel) < suffix data n (q + rel)
  appended : Appended data (keyBlocks data ((s.1.take g).map (· + rel))) s.2 s'.2
  increasing : ZeroTail data n → (keyBlocks data ((s.1.take g).map (· + rel))).Pairwise
    fun B C => ∀ p ∈ B, ∀ q ∈ C, orderKeyAt data p < orderKeyAt data q

/-- Between the steps: the columns from `rel` on are appended, and the one before is in order. -/
structure Emitting (data : List UInt8) (n base g : Nat) (builder : MaterializedBuilder) (rel : Nat)
    (s : List Nat × MaterializedBuilder) : Prop where
  origins : 0 < rel → Origins data n base g (rel - 1) s.1
  room : Room n (g * rel) s.2
  appended : ∃ blocks, Appended data blocks builder s.2 ∧ blocks.flatten.Perm (covered base g rel)

include hlen hmax in
theorem emitGroupRunStep_column {equalColumns : List Bool} {builder : MaterializedBuilder}
    {s : List Nat × MaterializedBuilder} (hbase : base % 256 = 0) (hg : 0 < g)
    (hfit : base + 256 * g ≤ n) (hmarked : MarkedEqual data base g equalColumns)
    (hrel : rel < 256) (h : Emitting data n base g builder (rel + 1) s) :
    Returns (emitGroupRunStep data equalColumns g rel s) fun s' =>
      Emitting data n base g builder rel s' ∧ ColumnStep data n base g rel s s' ∧
        emitGroupRunStep data [] g rel s = some s' := by
  have horder := h.origins (Nat.succ_pos rel)
  rw [Nat.add_sub_cancel] at horder
  have hroom := h.room
  rw [Nat.mul_succ, Nat.add_comm] at hroom
  have hflatten : (keyBlocks data ((s.1.take g).map (· + rel))).flatten =
      (s.1.take g).map (· + rel) := List.flatten_splitBy _ _
  obtain ⟨b, hb, happended⟩ := emitColumn_appends hlen hmax hroom hrel hg hfit hmarked horder
  obtain ⟨⟨order', b'⟩, hreorder, rfl, horder', -⟩ :=
    reorder_returns hlen hfit hmarked hrel horder b
  have hstep : emitGroupRunStep data equalColumns g rel s = some (order', b') := by
    rw [emitGroupRunStep, hb]
    exact hreorder
  have hsorted := horder.col.sorted
  obtain ⟨blocks, hblocks, hperm⟩ := h.appended
  refine .of_eq hstep ⟨⟨horder', ?_, ?_⟩, ⟨horder.perm, ?_, happended, ?_⟩, ?_⟩
  · refine Room.after ?_ happended (List.nil_notMem_splitBy _ _)
    rw [hflatten, horder.col.length]
    exact hroom
  · refine ⟨_, hblocks.trans happended, ?_⟩
    rw [List.flatten_append, hflatten]
    exact ((horder.col.perm.append_left _).trans (hperm.append_right _)).trans
      (covered_step hbase g hrel)
  · rwa [List.pairwise_map] at hsorted
  · intro hzero
    exact keyBlocks_increasing hzero (fun p hp => horder.col.bound hrel hfit hp) hsorted
  · rw [← emitGroupRunStep_eq hlen hrel hg hfit hmarked horder]
    exact hstep

end Columns

end DirtybirdMiner.V114.ColumnRuns
