import DirtybirdMiner.Lib.Sorting
import DirtybirdMiner.Pow.Difficulty

/-!
The descriptor suffix-array backend, from `astrobwt/src/v114.rs`: the
materialized builder `sa_build_compact_fused` and the streaming builder
`hash_compact_fused`, over one scratch that is reused from call to call.

Positions and lengths are naturals, buffers are lists, and `none` is a read or a
write outside a buffer.  A 32-bit word of a buffer is its value as a natural.
The two run-length lists and the key list of the scratch are cleared or filled
before each use and are locals here.
-/

namespace DirtybirdMiner.V114.Model

open DirtybirdMiner.Lib.Bytes
open DirtybirdMiner.Lib.Checked
open DirtybirdMiner.Lib.Buffers
open DirtybirdMiner.Lib.Sorting
open DirtybirdMiner.Pow.Difficulty

/-- `DESCRIPTOR_ARENA_INDEX_COUNT`. -/
def descriptorArenaIndexCount : Nat := 0x20000

/-- `STAGE4_MAX_GROUP_COUNT`. -/
def stage4MaxGroupCount : Nat := descriptorArenaIndexCount >>> 8

/-- `STAGE4_SHORT_RUN_MAX`. -/
def stage4ShortRunMax : Nat := 25

/-- `SINK_BUFFER_WORDS`. -/
def sinkBufferWords : Nat := 2048

/-- `MATERIALIZED_SA_TAIL_WORDS`. -/
def materializedSaTailWords : Nat := 7

/-- `MATERIALIZED_SA_COPY_WORDS`. -/
def materializedSaCopyWords : Nat := materializedSaTailWords + 1

/-- `MAX_STACK_LITERAL_GROUP`. -/
def maxStackLiteralGroup : Nat := 32

structure Stage4View where
  logicalLen : Nat
  flags : List UInt8
  data : List UInt8

structure Stage5View where
  logicalLen : Nat
  data : List UInt8

section Loads

def load24Padded (data : List UInt8) (pos : Nat) : Nat :=
  let v0 := if pos < data.length then (data.getD pos 0).toNat else 0
  let v1 := if pos + 1 < data.length then (data.getD (pos + 1) 0).toNat <<< 8 else 0
  let v2 := if pos + 2 < data.length then (data.getD (pos + 2) 0).toNat <<< 16 else 0
  v0 ||| v1 ||| v2

/-- A masked load of four bytes. -/
def load24Unchecked (data : List UInt8) (pos : Nat) : Option Nat := do
  let bytes ← readAt data pos 4
  some (leValue bytes &&& 0x00ffffff)

def hasLoad24Padding (view : Stage4View) : Bool := view.data.length ≥ view.logicalLen + 3

def load24Fast (view : Stage4View) (pos : Nat) (padded : Bool) : Option Nat :=
  if padded then load24Unchecked view.data pos else some (load24Padded view.data pos)

def loadBe64 (data : List UInt8) (pos : Nat) : Option Nat := do
  let bytes ← readAt data pos 8
  some (beValue bytes)

end Loads

section Comparators

/-- `a.cmp(&b)` of byte slices: lexicographic, a proper prefix first. -/
def compareSlices : List UInt8 → List UInt8 → Ordering
  | [], [] => .eq
  | [], _ :: _ => .lt
  | _ :: _, [] => .gt
  | a :: s, b :: t => (compare a b).then (compareSlices s t)

/-- The loop of `compare_suffixes_s4`, for at most `fuel` rounds. -/
def compareSuffixesS4Loop (view : Stage4View) : Nat → Nat → Nat → Option Ordering
  | 0, _, _ => none
  | fuel + 1, a, b =>
      if a < view.logicalLen ∧ b < view.logicalLen then do
        let av ← view.data[a]?
        let bv ← view.data[b]?
        if av ≠ bv then some (compare av bv)
        else compareSuffixesS4Loop view fuel (a + 1) (b + 1)
      else if a = view.logicalLen ∧ b = view.logicalLen then some .eq
      else if a = view.logicalLen then some .lt
      else some .gt

def compareSuffixesS4 (view : Stage4View) (a b : Nat) : Option Ordering :=
  if a = b then some .eq else compareSuffixesS4Loop view (view.logicalLen + 1) a b

/-- The two loops of `compare_suffixes_full_8`: eight bytes at a time as long as
they last, then single bytes. -/
def compareCommon (data : List UInt8) (a b common : Nat) : Nat → Nat → Option Ordering
  | 0, _ => none
  | fuel + 1, offset =>
      if offset + 8 ≤ common then do
        let av ← loadBe64 data (a + offset)
        let bv ← loadBe64 data (b + offset)
        if compare av bv ≠ .eq then some (compare av bv)
        else compareCommon data a b common fuel (offset + 8)
      else if offset < common then do
        let av ← data[a + offset]?
        let bv ← data[b + offset]?
        if compare av bv ≠ .eq then some (compare av bv)
        else compareCommon data a b common fuel (offset + 1)
      else some .eq

def compareSuffixesFull8 (view : Stage5View) (a b : Nat) : Option Ordering :=
  if a = b then some .eq
  else do
    require (a ≤ view.logicalLen ∧ b ≤ view.logicalLen)
    let aLen := view.logicalLen - a
    let bLen := view.logicalLen - b
    let common := min aLen bLen
    let cmp ← compareCommon view.data a b common (common + 1) 0
    some (if cmp ≠ .eq then cmp else compare aLen bLen)

/-- The eight-byte comparison of `compare_suffixes_after_key`. -/
def compareHead (data : List UInt8) (ap bp common : Nat) : Option Ordering :=
  if common ≥ 8 then do
    let av ← loadBe64 data ap
    let bv ← loadBe64 data bp
    some (compare av bv)
  else some .eq

/-- The slice comparison that ends `compare_suffixes_after_key`. -/
def compareRest (data : List UInt8) (ap bp common : Nat) : Option Ordering :=
  if common > 8 then do
    let s ← readAt data (ap + 8) (common - 8)
    let t ← readAt data (bp + 8) (common - 8)
    some (compareSlices s t)
  else do
    let s ← readAt data ap common
    let t ← readAt data bp common
    some (compareSlices s t)

def compareSuffixesAfterKey (view : Stage5View) (a b : Nat) : Option Ordering :=
  if a = b then some .eq
  else do
    require (a ≤ view.logicalLen ∧ b ≤ view.logicalLen)
    let aLen := view.logicalLen - a
    let bLen := view.logicalLen - b
    let commonWithKey := min aLen bLen
    if commonWithKey ≤ 3 then some (compare aLen bLen)
    else do
      let common := commonWithKey - 3
      let ap := a + 3
      let bp := b + 3
      let head ← compareHead view.data ap bp common
      if head ≠ .eq then some head
      else do
        let cmp ← compareRest view.data ap bp common
        some (if cmp ≠ .eq then cmp else compare aLen bLen)

/-- The loop of `suffix_prefix_after_key` over `i..logical_len`. -/
def prefixLoop (data : List UInt8) (i : Nat) : Nat → Nat → Nat → Option Nat
  | 0, _, value => some value
  | count + 1, shift, value => do
      let b ← data[i]?
      prefixLoop data (i + 1) count ((shift + 2 ^ 32 - 8) % 2 ^ 32) (value ||| b.toNat <<< shift)

def suffixPrefixAfterKey (view : Stage5View) (pos : Nat) : Option Nat :=
  let start := pos + 3
  if start + 8 ≤ view.logicalLen then loadBe64 view.data start
  else prefixLoop view.data start (view.logicalLen - start) 56 0

def suffixLessAfterKey (view : Stage5View) (a b : Nat) : Option Bool := do
  let cmp ← compareSuffixesAfterKey view a b
  match cmp with
  | .lt => some true
  | .gt => some false
  | .eq => some (decide (a < b))

end Comparators

section Reordering

/-- Insertion sort by full suffix order. -/
def sortStage4SuffixOrderSmall (view : Stage4View) (order : List Nat) : Option (List Nat) :=
  insertionSort (fun pos previous => do
    let cmp ← compareSuffixesS4 view pos previous
    some (cmp = .lt)) order

/-- The stable insertion by the byte at `origin + rel`. -/
def reorderByLeadingByte (data : List UInt8) (rel : Nat) (order : List Nat) :
    Option (List Nat) :=
  insertionSort (fun pos previous => do
    let key ← data[pos + rel]?
    let other ← data[previous + rel]?
    some (other > key)) order

/-- `sort_by`, a stable sort. -/
def sortBy (cmp : Nat → Nat → Option Ordering) (items : List Nat) : Option (List Nat) :=
  insertionSort (fun x previous => do
    let c ← cmp x previous
    some (c = .lt)) items

def stepBackAndReorder (data : List UInt8) (order : List Nat) : Option (List Nat) := do
  require (∀ pos ∈ order, 0 < pos)
  reorderByLeadingByte data 0 (order.map fun pos => pos - 1)

end Reordering

section Runs

structure Stage5Run where
  key : Nat
  packed : Nat
deriving DecidableEq, Inhabited

/-- `Stage5Run::default()`. -/
def Stage5Run.zero : Stage5Run := { key := 0, packed := 0 }

def stage5RadixOrderKey (key : Nat) : Nat :=
  ((key &&& 0x0000ff) <<< 16) ||| (key &&& 0x00ff00) ||| ((key &&& 0xff0000) >>> 16)

def makeStage5Run (key start count : Nat) (scratch : Bool) : Stage5Run where
  key := key
  packed := if scratch then start else (count <<< 17) + start

def stage5RunEncodedCount (run : Stage5Run) : Nat := run.packed >>> 17

def stage5RunIsLiteral (run : Stage5Run) : Bool := stage5RunEncodedCount run = 0

def stage5RunBegin (run : Stage5Run) : Nat := run.packed &&& 0x1ffff

def stage5RunCount (run : Stage5Run) : Nat :=
  if stage5RunEncodedCount run = 0 then 1 else stage5RunEncodedCount run

/-- `fused_run_pos` for every `rel` below the count. -/
def fusedRunPositions (arenaPositions : List Nat) (run : Stage5Run) : Option (List Nat) :=
  if stage5RunIsLiteral run then some [stage5RunBegin run]
  else readAt arenaPositions (stage5RunBegin run) (stage5RunCount run)

/-- The byte of a key that the pass with this number sorts by. -/
def radixDigit (pass : Nat) (run : Stage5Run) : Nat := (run.key >>> (8 * pass)) &&& 0xff

/-- `[[u32; 256]; 3]`. -/
structure RadixCounts where
  pass0 : List Nat
  pass1 : List Nat
  pass2 : List Nat

def RadixCounts.zero : RadixCounts where
  pass0 := List.replicate 256 0
  pass1 := List.replicate 256 0
  pass2 := List.replicate 256 0

def countRadixKey (counts : RadixCounts) (run : Stage5Run) : RadixCounts where
  pass0 := counts.pass0.modify (radixDigit 0 run) (· + 1)
  pass1 := counts.pass1.modify (radixDigit 1 run) (· + 1)
  pass2 := counts.pass2.modify (radixDigit 2 run) (· + 1)

/-- One pass over the first `n` runs: prefix sums, then the scatter. -/
def radixPass (pass : Nat) (src dst : List Stage5Run) (n : Nat) (counts : List Nat) :
    Option (List Stage5Run) := do
  let items ← readAt src 0 n
  let (_, dst) ← scatter (radixDigit pass) items (exclusiveSums 0 counts) dst
  some dst

/-- Returns `runs` and `tmp`, swapped at the end. -/
def radixSortRunsByStoredKeyPrefixCounted (runs tmp : List Stage5Run) (n : Nat)
    (counts : RadixCounts) : Option (List Stage5Run × List Stage5Run) :=
  if n ≤ 1 then some (runs, tmp)
  else do
    let tmp ← radixPass 0 runs tmp n counts.pass0
    let runs ← radixPass 1 tmp runs n counts.pass1
    let tmp ← radixPass 2 runs tmp n counts.pass2
    some (tmp, runs)

def radixSortRunsByStoredKeyPrefix (runs tmp : List Stage5Run) (n : Nat) :
    Option (List Stage5Run × List Stage5Run) := do
  let items ← readAt runs 0 n
  radixSortRunsByStoredKeyPrefixCounted runs tmp n (items.foldl countRadixKey RadixCounts.zero)

def radixSortRunsByStoredKey (runs tmp : List Stage5Run) :
    Option (List Stage5Run × List Stage5Run) :=
  let n := runs.length
  if n ≤ 1 then some (runs, tmp)
  else do
    let tmp := if tmp.length < n then resize tmp n Stage5Run.zero else tmp
    let (runs, tmp) ← radixSortRunsByStoredKeyPrefix runs tmp n
    some (runs.take n, tmp)

end Runs

section Merging

/-- One pass over the run lengths: pairs of neighbours are merged from `src` into
`dst`, an odd one is copied.  Returns the new run lengths and `dst`. -/
def mergePass (view : Stage5View) (src : List Nat) :
    List Nat → Nat → List Nat → Option (List Nat × List Nat)
  | [], _, dst => some ([], dst)
  | [leftLen], base, dst => do
      let left ← readAt src base leftLen
      let dst ← writeAt dst base left
      some ([leftLen], dst)
  | leftLen :: rightLen :: runLengths, base, dst => do
      let left ← readAt src base leftLen
      let right ← readAt src (base + leftLen) rightLen
      let merged ← merge (suffixLessAfterKey view) left right
      let dst ← writeAt dst base merged
      let (nextRunLengths, dst) ← mergePass view src runLengths (base + leftLen + rightLen) dst
      some ((leftLen + rightLen) :: nextRunLengths, dst)

/-- The passes, the two buffers changing roles after each. -/
def mergePasses (view : Stage5View) :
    Nat → List Nat → List Nat → List Nat → Option (List Nat × List Nat)
  | 0, runLengths, src, dst => if runLengths.length > 1 then none else some (src, dst)
  | fuel + 1, runLengths, src, dst =>
      if runLengths.length > 1 then do
        let (runLengths, dst) ← mergePass view src runLengths 0 dst
        mergePasses view fuel runLengths dst src
      else some (src, dst)

/-- Returns `positions`, which holds the result, and `merge_positions`. -/
def mergeEqualKeyRunsAfterKey (view : Stage5View) (positions mergePositions runLengths : List Nat) :
    Option (List Nat × List Nat) :=
  if runLengths.length ≤ 1 then some (positions, mergePositions)
  else mergePasses view runLengths.length runLengths positions
    (resize mergePositions positions.length 0)

/-- The passes with both vectors of run lengths: the second is cleared and filled, and the two
change roles. -/
def mergeRounds (view : Stage5View) :
    Nat → List Nat → List Nat → List Nat → List Nat →
      Option (List Nat × List Nat × List Nat × List Nat)
  | 0, runLengths, nextRunLengths, src, dst =>
      if runLengths.length > 1 then none else some (src, dst, runLengths, nextRunLengths)
  | fuel + 1, runLengths, nextRunLengths, src, dst =>
      if runLengths.length > 1 then do
        let (pushed, dst) ← mergePass view src runLengths 0 dst
        let nextRunLengths := nextRunLengths.take 0 ++ pushed
        mergeRounds view fuel nextRunLengths runLengths dst src
      else some (src, dst, runLengths, nextRunLengths)

/-- `merge_equal_key_runs_after_key` with all its vectors, in the order of the parameters. -/
def mergeEqualKeyRuns (view : Stage5View)
    (positions mergePositions runLengths nextRunLengths : List Nat) :
    Option (List Nat × List Nat × List Nat × List Nat) :=
  if runLengths.length ≤ 1 then some (positions, mergePositions, runLengths, nextRunLengths)
  else mergeRounds view runLengths.length runLengths nextRunLengths positions
    (resize mergePositions positions.length 0)

/-- The test of `try_two_equal_key_runs`: the cached prefixes, then the full
comparison. -/
def twoRunsLess (view : Stage5View) (lpos rpos : Nat) : Option Bool := do
  let lprefix ← suffixPrefixAfterKey view lpos
  let rprefix ← suffixPrefixAfterKey view rpos
  if lprefix < rprefix then some true
  else if lprefix = rprefix then suffixLessAfterKey view lpos rpos
  else some false

/-- What `try_two_equal_key_runs` hands to its sink for two runs. -/
def twoEqualKeyRuns (view : Stage5View) (arenaPositions : List Nat) (left right : Stage5Run) :
    Option (List Nat) := do
  let leftPositions ← fusedRunPositions arenaPositions left
  let rightPositions ← fusedRunPositions arenaPositions right
  merge (twoRunsLess view) leftPositions rightPositions

end Merging

section Scanning

/-- The scan for groups of equal keys: `body` gets the key, the first index and
the length of each. -/
def forGroups {σ : Type} (keys : List Nat) (body : Nat → Nat → Nat → σ → Option σ) :
    Nat → Nat → σ → Option σ
  | 0, first, s => if first < keys.length then none else some s
  | fuel + 1, first, s =>
      match keys.drop first with
      | [] => some s
      | key :: rest => do
          let count := 1 + (rest.takeWhile (· = key)).length
          let s ← body key first count s
          forGroups keys body fuel (first + count) s

end Scanning

section Streaming

/-- The buffers of the streaming emitters.  `ok` is false once an emitter has
returned false: its callers return at once. -/
structure Emit where
  runs : List Stage5Run
  arena : List Nat
  order : List Nat
  ok : Bool

def Emit.andThen (emit : Emit) (next : Emit → Option Emit) : Option Emit :=
  if emit.ok then next emit else some emit

def appendFusedOrderGroup (key : Nat) (order : List Nat) (first count : Nat)
    (count1Singletons : Bool) (emit : Emit) : Option Emit :=
  if count = 0 then some { emit with ok := false }
  else if count = 1 ∧ count1Singletons = false then do
    let pos ← order[first]?
    some { emit with
      runs := emit.runs ++ [makeStage5Run (stage5RadixOrderKey key) pos 1 true] }
  else if emit.arena.length > descriptorArenaIndexCount ∨
      count > descriptorArenaIndexCount - emit.arena.length then
    some { emit with ok := false }
  else do
    let group ← readAt order first count
    some { emit with
      arena := emit.arena ++ group
      runs := emit.runs ++ [makeStage5Run (stage5RadixOrderKey key) emit.arena.length count false] }

def emitFusedLiteralRecords (view : Stage4View) (start count : Nat) (count1Singletons : Bool)
    (emit : Emit) : Option Emit :=
  forUp (fun rel emit => emit.andThen fun emit => do
    let pos := start + rel
    let key ← load24Fast view pos (hasLoad24Padding view)
    appendFusedOrderGroup key [pos] 0 1 count1Singletons emit) 0 count emit

/-- The two positions of `emit_fused_two`, swapped if the first byte of the first
is greater. -/
def stepBackTwo (view : Stage4View) (order : Nat × Nat) : Option (Nat × Nat) := do
  require (0 < order.1 ∧ 0 < order.2)
  let left ← view.data[order.1 - 1]?
  let right ← view.data[order.2 - 1]?
  some (if left > right then (order.2 - 1, order.1 - 1) else (order.1 - 1, order.2 - 1))

def emitTwoColumn (view : Stage4View) (count1Singletons : Bool) (order : Nat × Nat)
    (emit : Emit) : Option Emit := do
  let key0 ← load24Fast view order.1 (hasLoad24Padding view)
  let key1 ← load24Fast view order.2 (hasLoad24Padding view)
  if key0 = key1 then
    appendFusedOrderGroup key0 [order.1, order.2] 0 2 count1Singletons emit
  else do
    let emit ← appendFusedOrderGroup key0 [order.1, order.2] 0 1 count1Singletons emit
    emit.andThen (appendFusedOrderGroup key1 [order.1, order.2] 1 1 count1Singletons)

/-- One round of the loop over `rel`. -/
def emitFusedTwoStep (view : Stage4View) (count1Singletons : Bool) (rel : Nat)
    (s : (Nat × Nat) × Emit) : Option ((Nat × Nat) × Emit) :=
  if s.2.ok then do
    let emit ← emitTwoColumn view count1Singletons s.1 s.2
    if rel > 0 ∧ emit.ok then do
      let order ← stepBackTwo view s.1
      some (order, emit)
    else some (s.1, emit)
  else some s

def emitFusedTwo (view : Stage4View) (startGroup : Nat) (count1Singletons : Bool)
    (emit : Emit) : Option Emit := do
  let base := startGroup <<< 8
  let cmp ← compareSuffixesS4 view (base + 511) (base + 255)
  let order := if cmp = .lt then (base + 511, base + 255) else (base + 255, base + 511)
  let s ← forDown (emitFusedTwoStep view count1Singletons) 256 (order, emit)
  some s.2

def emitScanStep (view : Stage4View) (count1Singletons : Bool) (rel : Nat) (emit : Emit) :
    Option Emit :=
  emit.andThen fun emit => do
    let keys ← emit.order.mapM fun pos => load24Fast view pos (hasLoad24Padding view)
    let order := emit.order
    let emit ← forGroups keys (fun key first count emit => emit.andThen
      (appendFusedOrderGroup key order first count count1Singletons)) keys.length 0 emit
    if rel > 0 ∧ emit.ok then do
      let order ← stepBackAndReorder view.data emit.order
      some { emit with order := order }
    else some emit

/-- The 256 columns, last first; `emit.order` holds the sorted positions of the
last one. -/
def emitFusedGroupScan (view : Stage4View) (count1Singletons : Bool) (emit : Emit) :
    Option Emit :=
  forDown (emitScanStep view count1Singletons) 256 emit

def seedOrder (base n : Nat) : List Nat := (List.range n).map fun chunk => base + chunk <<< 8 + 255

def emitFusedShort (view : Stage4View) (startGroup endGroup : Nat) (count1Singletons : Bool)
    (emit : Emit) : Option Emit :=
  let groupCount := endGroup - startGroup
  if groupCount = 0 ∨ groupCount > stage4ShortRunMax then some { emit with ok := false }
  else if groupCount = 2 then emitFusedTwo view startGroup count1Singletons emit
  else do
    let order ← sortStage4SuffixOrderSmall view (seedOrder (startGroup <<< 8) groupCount)
    emitFusedGroupScan view count1Singletons { emit with order := order }

def emitFusedFullGroupRun (view : Stage4View) (startGroup endGroup : Nat)
    (count1Singletons : Bool) (emit : Emit) : Option Emit :=
  let groupCount := endGroup - startGroup
  if groupCount = 0 then some emit
  else if groupCount > stage4MaxGroupCount then some { emit with ok := false }
  else if groupCount = 1 then
    emitFusedLiteralRecords view (startGroup <<< 8) 256 count1Singletons emit
  else if groupCount ≤ stage4ShortRunMax then
    emitFusedShort view startGroup endGroup count1Singletons emit
  else do
    let order ← sortBy (compareSuffixesS4 view) (seedOrder (startGroup <<< 8) groupCount)
    emitFusedGroupScan view count1Singletons { emit with order := order }

end Streaming

section Sink

/-- `FusedHashSink`.  `ctx` is the bytes the running SHA-256 has been given. -/
structure FusedHashSink where
  ctx : List UInt8
  buffer : List Nat
  buffered : Nat
  positions : Nat

/-- `bytemuck::cast_slice` of 32-bit words on a little-endian target. -/
def castSlice (words : List Nat) : List UInt8 := words.flatMap (leBytes 4)

def FusedHashSink.new : FusedHashSink where
  ctx := []
  buffer := List.replicate sinkBufferWords 0
  buffered := 0
  positions := 0

/-- A full buffer goes to the hash. -/
def FusedHashSink.flushFull (sink : FusedHashSink) : FusedHashSink :=
  if sink.buffered = sinkBufferWords then
    { sink with ctx := sink.ctx ++ castSlice sink.buffer, buffered := 0 }
  else sink

def FusedHashSink.writePos (sink : FusedHashSink) (pos : Nat) : Option FusedHashSink := do
  let buffer ← writeAt sink.buffer sink.buffered [pos]
  some { sink with
    buffer := buffer, buffered := sink.buffered + 1, positions := sink.positions + 1 }.flushFull

/-- The loop of `write_positions`: whole blocks past an empty buffer, then the
buffer is topped up. -/
def FusedHashSink.writeLoop : Nat → FusedHashSink → List Nat → Option FusedHashSink
  | 0, sink, positions => if positions.isEmpty then some sink else none
  | fuel + 1, sink, positions =>
      if positions.isEmpty then some sink
      else if sink.buffered = 0 ∧ positions.length ≥ sinkBufferWords then
        let full := positions.length - positions.length % sinkBufferWords
        writeLoop fuel { sink with
          ctx := sink.ctx ++ castSlice (positions.take full)
          positions := sink.positions + full } (positions.drop full)
      else do
        let space := sinkBufferWords - sink.buffered
        let chunk := min positions.length space
        let buffer ← writeAt sink.buffer sink.buffered (positions.take chunk)
        writeLoop fuel { sink with
          buffer := buffer
          buffered := sink.buffered + chunk
          positions := sink.positions + chunk }.flushFull (positions.drop chunk)

def FusedHashSink.writePositions (sink : FusedHashSink) (positions : List Nat) :
    Option FusedHashSink :=
  sink.writeLoop positions.length positions

/-- The bytes that the hash has been given at the end. -/
def FusedHashSink.finalize (sink : FusedHashSink) : List UInt8 :=
  if sink.buffered ≠ 0 then sink.ctx ++ castSlice (sink.buffer.take sink.buffered) else sink.ctx

end Sink

section Materialized

structure FusedScratch where
  order : List Nat
  arenaPositions : List Nat
  groupPositions : List Nat
  mergePositions : List Nat
  runs : List Stage5Run
  radixTmp : List Stage5Run
  materializedRadixCounts : RadixCounts
  materializedArenaLen : Nat
  materializedRunsLen : Nat

structure MaterializedBuilder where
  arena : List Nat
  runs : List Stage5Run
  radixCounts : RadixCounts
  arenaLen : Nat
  runsLen : Nat

/-- The copy of `append_run`, eight words at a time until `count` are copied. -/
def copyOrigins (arena origins : List Nat) (start first count rel : Nat) : Option (List Nat) :=
  forUp (fun k arena => do
    let copied := k * materializedSaCopyWords
    let block ← readAt origins (first + copied) materializedSaCopyWords
    writeAt arena (start + copied) (block.map fun origin => (origin + rel) % 2 ^ 32))
    0 ((count + materializedSaTailWords) / materializedSaCopyWords) arena

/-- The run of `count` positions that starts at this index of the arena. -/
def MaterializedBuilder.pushRun (builder : MaterializedBuilder) (arena : List Nat)
    (run : Stage5Run) (count : Nat) : Option MaterializedBuilder := do
  let runs ← writeAt builder.runs builder.runsLen [run]
  some {
    arena := arena
    runs := runs
    radixCounts := countRadixKey builder.radixCounts run
    arenaLen := builder.arenaLen + count
    runsLen := builder.runsLen + 1 }

def appendRun (data : List UInt8) (origins : List Nat) (first count rel : Nat)
    (builder : MaterializedBuilder) : Option MaterializedBuilder := do
  let arena ← copyOrigins builder.arena origins builder.arenaLen first count rel
  let origin ← origins[first]?
  let key ← load24Unchecked data (origin + rel)
  builder.pushRun arena
    (makeStage5Run (stage5RadixOrderKey key) builder.arenaLen count false) count

def emitLiterals (data : List UInt8) (start count : Nat) (builder : MaterializedBuilder) :
    Option MaterializedBuilder :=
  forUp (fun rel builder => do
    let pos := start + rel
    let key ← load24Unchecked data pos
    let arena ← writeAt builder.arena builder.arenaLen [pos]
    builder.pushRun arena (makeStage5Run (stage5RadixOrderKey key) builder.arenaLen 1 false) 1)
    0 count builder

/-- Whether the groups of a run agree in this column. -/
def columnEqual (data : List UInt8) (base groupCount rel : Nat) : Option Bool := do
  let first ← data[base + rel]?
  (List.range' 1 (groupCount - 1)).allM fun group => do
    let other ← data[base + group <<< 8 + rel]?
    some (other = first)

def emitColumn (data : List UInt8) (equalColumns : List Bool) (n rel : Nat) (order : List Nat)
    (builder : MaterializedBuilder) : Option MaterializedBuilder :=
  if rel ≤ 253 ∧ equalColumns.getD rel false ∧ equalColumns.getD (rel + 1) false ∧
      equalColumns.getD (rel + 2) false then
    appendRun data order 0 n rel builder
  else do
    let live ← readAt order 0 n
    let keys ← live.mapM fun origin => load24Unchecked data (origin + rel)
    forGroups keys (fun _ first count builder => appendRun data order first count rel builder)
      keys.length 0 builder

/-- `reorder_by_leading_byte` of the first `n` words. -/
def reorderPrefix (data : List UInt8) (n rel : Nat) (order : List Nat) : Option (List Nat) := do
  let live ← readAt order 0 n
  let live ← reorderByLeadingByte data rel live
  writeAt order 0 live

def emitGroupRunStep (data : List UInt8) (equalColumns : List Bool) (n rel : Nat)
    (s : List Nat × MaterializedBuilder) : Option (List Nat × MaterializedBuilder) := do
  let builder ← emitColumn data equalColumns n rel s.1 s.2
  if rel > 0 ∧ equalColumns.getD (rel - 1) false = false then do
    let order ← reorderPrefix data n (rel - 1) s.1
    some (order, builder)
  else some (s.1, builder)

def emitGroupRun (data : List UInt8) (logicalLen startGroup endGroup : Nat)
    (s : List Nat × MaterializedBuilder) : Option (List Nat × MaterializedBuilder) :=
  let groupCount := endGroup - startGroup
  let base := startGroup <<< 8
  if groupCount = 0 then some s
  else if groupCount = 1 then do
    let builder ← emitLiterals data base 256 s.2
    some (s.1, builder)
  else do
    let sorted ← sortBy (compareSuffixesFull8 { logicalLen := logicalLen, data := data })
      (seedOrder base groupCount)
    -- From here on the words are the origins of the groups.
    require (∀ pos ∈ sorted, 255 ≤ pos)
    let order ← writeAt s.1 0 (sorted.map fun pos => pos - 255)
    let equalColumns ← (List.range 256).mapM (columnEqual data base groupCount)
    forDown (emitGroupRunStep data equalColumns groupCount) 256 (order, s.2)

/-- A run ends at a flagged group and at the last full one. -/
def emitGroups (data : List UInt8) (logicalLen : Nat) (flags : List UInt8)
    (s : Nat × List Nat × MaterializedBuilder) : Option (Nat × List Nat × MaterializedBuilder) :=
  let fullGroups := logicalLen >>> 8
  forUp (fun group s => do
    let flag ← flags[group]?
    if flag ≠ 0 ∨ group = fullGroups then do
      let next ← emitGroupRun data logicalLen s.1 group s.2
      some (group, next)
    else some s) 1 fullGroups s

/-- Grow a buffer to a length, never shrink it. -/
def grow {α : Type} (buf : List α) (len : Nat) (v : α) : List α :=
  if buf.length < len then resize buf len v else buf

def buildMaterializedGroupRuns (data : List UInt8) (logicalLen : Nat) (flags : List UInt8)
    (scratch : FusedScratch) : Option (Bool × FusedScratch) :=
  if logicalLen = 0 ∨ logicalLen > descriptorArenaIndexCount then some (false, scratch)
  else if flags.length ≤ logicalLen >>> 8 then some (false, scratch)
  else if data.length < logicalLen + 3 then some (false, scratch)
  else do
    let paddedLen := logicalLen + materializedSaTailWords
    let order := grow scratch.order (stage4MaxGroupCount + materializedSaTailWords) 0
    let arenaPositions := grow scratch.arenaPositions paddedLen 0
    let runs := grow scratch.runs logicalLen Stage5Run.zero
    let radixTmp := grow scratch.radixTmp logicalLen Stage5Run.zero
    let groupPositions := grow scratch.groupPositions paddedLen 0
    let data := data.take (logicalLen + 3)
    let builder := {
      arena := arenaPositions.take paddedLen
      runs := runs.take logicalLen
      radixCounts := RadixCounts.zero
      arenaLen := 0
      runsLen := 0 }
    let (_, order, builder) ← emitGroups data logicalLen flags (0, order, builder)
    let builder ← emitLiterals data ((logicalLen >>> 8) <<< 8) (logicalLen &&& 0xff) builder
    -- The builder wrote to the front parts of the two buffers.
    let scratch := { scratch with
      order := order
      arenaPositions := builder.arena ++ arenaPositions.drop paddedLen
      groupPositions := groupPositions
      runs := builder.runs ++ runs.drop logicalLen
      radixTmp := radixTmp
      materializedRadixCounts := builder.radixCounts
      materializedArenaLen := 0
      materializedRunsLen := 0 }
    if builder.arenaLen ≠ logicalLen ∨ builder.runsLen > logicalLen then some (false, scratch)
    else some (true, { scratch with
      materializedArenaLen := builder.arenaLen, materializedRunsLen := builder.runsLen })

/-- Up to eight positions are copied as a block of eight. -/
def copyMaterializedRun (dst : List Nat) (dstBegin : Nat) (arena : List Nat) (run : Stage5Run) :
    Option (List Nat × Nat) := do
  let start := stage5RunBegin run
  let count := stage5RunCount run
  let block ← readAt arena start
    (if count ≤ materializedSaCopyWords then materializedSaCopyWords else count)
  let dst ← writeAt dst dstBegin block
  some (dst, count)

/-- The buffers of the walk over the sorted runs. -/
structure Materializing where
  out : List Nat
  outPos : Nat
  groupPositions : List Nat
  mergePositions : List Nat

def Materializing.copyRun (arena : List Nat) (run : Stage5Run) (m : Materializing) :
    Option Materializing := do
  let (out, copied) ← copyMaterializedRun m.out m.outPos arena run
  some { m with out := out, outPos := m.outPos + copied }

/-- The positions of several runs side by side in `group_positions`. -/
def gatherRuns (arena : List Nat) (group : List Stage5Run) (groupPositions : List Nat) :
    Option (List Nat × Nat) :=
  forEach (fun run s => do
    let (groupPositions, copied) ← copyMaterializedRun s.1 s.2 arena run
    some (groupPositions, s.2 + copied)) group (groupPositions, 0)

/-- The positions of one group of runs with the same key. -/
def materializeGroup (view : Stage5View) (arena : List Nat) (group : List Stage5Run)
    (m : Materializing) : Option Materializing :=
  match group with
  | [run] => m.copyRun arena run
  | [left, right] => do
      let positions ← twoEqualKeyRuns view arena left right
      let out ← writeAt m.out m.outPos positions
      some { m with out := out, outPos := m.outPos + positions.length }
  | group => do
      let runLengths := group.map stage5RunCount
      let (groupPositions, gathered) ← gatherRuns arena group m.groupPositions
      let (groupPositions, mergePositions) ←
        mergeEqualKeyRunsAfterKey view groupPositions m.mergePositions runLengths
      let merged ← readAt groupPositions 0 gathered
      let out ← writeAt m.out m.outPos merged
      some {
        out := out
        outPos := m.outPos + gathered
        groupPositions := groupPositions
        mergePositions := mergePositions }

/-- Four adjacent runs with keys of their own. -/
def fourUnique : List Stage5Run → Bool
  | r0 :: r1 :: r2 :: r3 :: rest =>
      r0.key ≠ r1.key && r1.key ≠ r2.key && r2.key ≠ r3.key &&
        match rest with
        | [] => true
        | r4 :: _ => r3.key ≠ r4.key
  | _ => false

/-- The walk over the runs that are left. -/
def materializeRuns (view : Stage5View) (arena : List Nat) :
    Nat → List Stage5Run → Materializing → Option Materializing
  | 0, runs, m => if runs.isEmpty then some m else none
  | fuel + 1, runs, m =>
      match runs with
      | [] => some m
      | run :: rest =>
          if fourUnique runs then do
            let m ← forEach (Materializing.copyRun arena) (runs.take 4) m
            materializeRuns view arena fuel (runs.drop 4) m
          else do
            let group := run :: rest.takeWhile fun r => r.key = run.key
            let m ← materializeGroup view arena group m
            materializeRuns view arena fuel (rest.dropWhile fun r => r.key = run.key) m

/-- Returns the outcome, the scratch and `out`. -/
def materializeGroupRunsToSa (view : Stage5View) (scratch : FusedScratch) (out : List Nat) :
    Option (Bool × FusedScratch × List Nat) :=
  let paddedLen := view.logicalLen + materializedSaTailWords
  let runsLen := scratch.materializedRunsLen
  if out.length < paddedLen ∨ scratch.materializedArenaLen ≠ view.logicalLen ∨
      runsLen > view.logicalLen ∨ scratch.arenaPositions.length < paddedLen ∨
      scratch.runs.length < runsLen ∨ scratch.radixTmp.length < runsLen ∨
      scratch.groupPositions.length < paddedLen then
    some (false, scratch, out)
  else do
    let (runs, radixTmp) ← radixSortRunsByStoredKeyPrefixCounted scratch.runs scratch.radixTmp
      runsLen scratch.materializedRadixCounts
    let m ← materializeRuns view (scratch.arenaPositions.take paddedLen) runsLen
      (runs.take runsLen) {
        out := out.take paddedLen
        outPos := 0
        groupPositions := scratch.groupPositions
        mergePositions := scratch.mergePositions }
    some (m.outPos = view.logicalLen, { scratch with
      runs := runs
      radixTmp := radixTmp
      groupPositions := m.groupPositions
      mergePositions := m.mergePositions }, m.out ++ out.drop paddedLen)

end Materialized

section EntryPoints

/-- Returns the outcome, `sa` and the scratch. -/
def saBuildCompactFused (dataWithTail : List UInt8) (logicalLen : Nat) (flags : List UInt8)
    (sa : List Nat) (scratch : FusedScratch) : Option (Bool × List Nat × FusedScratch) :=
  if logicalLen ≥ 2 ^ 32 then some (false, sa, scratch)
  else if dataWithTail.length < logicalLen + 3 ∨ sa.length < logicalLen + materializedSaTailWords
    then some (false, sa, scratch)
  else do
    let data := dataWithTail.take (logicalLen + 3)
    let (built, scratch) ← buildMaterializedGroupRuns data logicalLen flags scratch
    if built then do
      let (ok, scratch, sa) ← materializeGroupRunsToSa { logicalLen := logicalLen, data := data }
        scratch sa
      some (ok, sa, scratch)
    else some (false, sa, scratch)

/-- A small group of literals, sorted; `none` inside for any other group. -/
def sortedLiteralGroup (view : Stage5View) (group : List Stage5Run) :
    Option (Option (List Nat)) :=
  if group.length = 0 ∨ group.length > maxStackLiteralGroup then some none
  else if group.all stage5RunIsLiteral then do
    let positions ← insertionSort (suffixLessAfterKey view) (group.map stage5RunBegin)
    some (some positions)
  else some none

/-- The buffers of the streaming walk over the sorted runs. -/
structure Writing where
  sink : FusedHashSink
  groupPositions : List Nat
  mergePositions : List Nat

def writePosEach (sink : FusedHashSink) (positions : List Nat) : Option FusedHashSink :=
  forEach (fun pos (sink : FusedHashSink) => sink.writePos pos) positions sink

/-- The general equal-key group: gather, merge, write. -/
def writeMergedGroup (view : Stage5View) (arena : List Nat) (group : List Stage5Run)
    (w : Writing) : Option Writing := do
  let gathered ← group.mapM (fusedRunPositions arena)
  let (groupPositions, mergePositions) ← mergeEqualKeyRunsAfterKey view gathered.flatten
    w.mergePositions (group.map stage5RunCount)
  let sink ← w.sink.writePositions groupPositions
  some { sink := sink, groupPositions := groupPositions, mergePositions := mergePositions }

/-- The positions of one group of runs with the same key, handed to the sink. -/
def writeGroup (view : Stage5View) (arena : List Nat) (group : List Stage5Run) (w : Writing) :
    Option Writing :=
  match group with
  | [run] =>
      if stage5RunIsLiteral run then do
        let sink ← w.sink.writePos (stage5RunBegin run)
        some { w with sink := sink }
      else do
        let positions ← readAt arena (stage5RunBegin run) (stage5RunCount run)
        let sink ← w.sink.writePositions positions
        some { w with sink := sink }
  | group => do
      let literals ← sortedLiteralGroup view group
      match literals, group with
      | some positions, _ => do
          let sink ← writePosEach w.sink positions
          some { w with sink := sink }
      | none, [left, right] => do
          let positions ← twoEqualKeyRuns view arena left right
          let sink ← writePosEach w.sink positions
          some { w with sink := sink }
      | none, group => writeMergedGroup view arena group w

def writeRuns (view : Stage5View) (arena : List Nat) :
    Nat → List Stage5Run → Writing → Option Writing
  | 0, runs, w => if runs.isEmpty then some w else none
  | fuel + 1, runs, w =>
      match runs with
      | [] => some w
      | run :: rest => do
          let group := run :: rest.takeWhile fun r => r.key = run.key
          let w ← writeGroup view arena group w
          writeRuns view arena fuel (rest.dropWhile fun r => r.key = run.key) w

variable (sha256 : List UInt8 → Hash)

def writeFusedRunsToHash (view : Stage5View) (scratch : FusedScratch) :
    Option (Option Hash × FusedScratch) := do
  let (runs, radixTmp) ← radixSortRunsByStoredKey scratch.runs scratch.radixTmp
  let w ← writeRuns view scratch.arenaPositions runs.length runs {
    sink := FusedHashSink.new
    groupPositions := scratch.groupPositions
    mergePositions := scratch.mergePositions }
  let scratch := { scratch with
    runs := runs
    radixTmp := radixTmp
    groupPositions := w.groupPositions
    mergePositions := w.mergePositions }
  some (if w.sink.positions = view.logicalLen then some (sha256 w.sink.finalize) else none, scratch)

/-- The walk over the template groups; the run of an emitter that refused is
left as it is. -/
def emitFusedGroups (view : Stage4View) (count1Singletons : Bool) (s : Nat × Emit) :
    Option (Nat × Emit) :=
  let fullGroups := view.logicalLen >>> 8
  forUp (fun group s =>
    if s.2.ok then do
      let flag ← view.flags[group]?
      if flag ≠ 0 ∨ group = fullGroups then do
        let emit ← emitFusedFullGroupRun view s.1 group count1Singletons s.2
        some (group, emit)
      else some s
    else some s) 1 fullGroups s

def runFusedEmit (data : List UInt8) (logicalLen : Nat) (flags : List UInt8)
    (count1Singletons : Bool) (scratch : FusedScratch) : Option (Bool × FusedScratch) :=
  if logicalLen = 0 ∨ logicalLen > descriptorArenaIndexCount then some (false, scratch)
  else if data.length < logicalLen then some (false, scratch)
  else if flags.length ≤ logicalLen >>> 8 then some (false, scratch)
  else do
    let view := { logicalLen := logicalLen, flags := flags, data := data : Stage4View }
    let emit := { runs := [], arena := [], order := scratch.order, ok := true : Emit }
    let (_, emit) ← emitFusedGroups view count1Singletons (0, emit)
    let emit ← emit.andThen (emitFusedLiteralRecords view ((logicalLen >>> 8) <<< 8)
      (logicalLen &&& 0xff) count1Singletons)
    some (emit.ok, { scratch with
      order := emit.order
      arenaPositions := emit.arena
      groupPositions := []
      mergePositions := []
      runs := emit.runs })

/-- Returns the hash, if any, and the scratch. -/
def hashCompactFused (dataWithTail : List UInt8) (logicalLen : Nat) (flags : List UInt8)
    (count1Singletons : Bool) (scratch : FusedScratch) :
    Option (Option Hash × FusedScratch) :=
  if logicalLen ≥ 2 ^ 32 then some (none, scratch)
  else if dataWithTail.length < logicalLen + 3 then some (none, scratch)
  else do
    let data := dataWithTail.take (logicalLen + 3)
    let (emitted, scratch) ← runFusedEmit data logicalLen flags count1Singletons scratch
    if emitted then
      writeFusedRunsToHash sha256 { logicalLen := logicalLen, data := data } scratch
    else some (none, scratch)

end EntryPoints

end DirtybirdMiner.V114.Model
