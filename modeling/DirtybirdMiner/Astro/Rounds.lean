import DirtybirdMiner.Astro.Correct
import DirtybirdMiner.Astro.LargePages
import DirtybirdMiner.Astro.OpsAvx2

/-!
The op loop stays inside its buffers, whatever the hash functions and the op kernel do.
A round works on a window of at most 32 bytes, the loop ends after 261 to 277 rounds, and
neither the marker list nor the buffers outgrow what they were made for.  On such windows
the two op kernels agree, so that the hash does not depend on the kernel.
-/

namespace DirtybirdMiner.Astro.Rounds

open DirtybirdMiner.Lib.Bytes
open DirtybirdMiner.Lib.Checked
open DirtybirdMiner.Lib.Buffers
open DirtybirdMiner.Astro.Model
open DirtybirdMiner.Astro.Correct

section Windows

/-- The word that `op`, `pos1` and `pos2` of a try are cut from. -/
def randomSwitcher (tries : Nat) (st : OpState) : UInt64 :=
  st.prevLhash ^^^ st.lhash ^^^ UInt64.ofNat tries

/-- `pos1` and `pos2`. -/
def positions (randomSwitcher : UInt64) : UInt8 × UInt8 :=
  let pos1 := (randomSwitcher >>> 8).toUInt8
  let pos2 := (randomSwitcher >>> 16).toUInt8
  let (pos1, pos2) := if pos1 > pos2 then (pos2, pos1) else (pos1, pos2)
  let pos2 := if pos2 - pos1 > 32 then pos1 + ((pos2 - pos1) &&& 0x1f) else pos2
  (pos1, pos2)

/-- The window of two bytes in unbounded arithmetic. -/
def window (a b : Nat) : Nat × Nat :=
  let lo := min a b
  let hi := max a b
  (lo, if 32 < hi - lo then lo + (hi - lo) % 32 else hi)

theorem window_le (a b : Nat) : (window a b).1 ≤ (window a b).2 := by
  rw [window]
  dsimp only
  split <;> omega

theorem window_wide (a b : Nat) : (window a b).2 - (window a b).1 ≤ 32 := by
  rw [window]
  dsimp only
  split <;> omega

theorem clamp_toNat {a b : UInt8} (h : a ≤ b) :
    (if b - a > 32 then a + ((b - a) &&& 0x1f) else b).toNat = (window a.toNat b.toNat).2 := by
  have hle : a.toNat ≤ b.toNat := h
  have hb := b.toNat_lt
  have hsub := UInt8.toNat_sub_of_le b a h
  have hwide : b - a > 32 ↔ 32 < b.toNat - a.toNat := by
    rw [← hsub]
    rfl
  rw [window, Nat.min_eq_left hle, Nat.max_eq_right hle, apply_ite UInt8.toNat]
  dsimp only
  refine if_congr hwide ?_ rfl
  have hand : ((b - a) &&& 0x1f).toNat = (b.toNat - a.toNat) % 32 := by
    rw [UInt8.toNat_and, hsub]
    exact Nat.and_two_pow_sub_one_eq_mod _ 5
  rw [UInt8.toNat_add, hand]
  omega

/-- Nothing wraps. -/
theorem positions_toNat (w : UInt64) :
    ((positions w).1.toNat, (positions w).2.toNat) =
      window (w >>> 8).toUInt8.toNat (w >>> 16).toUInt8.toNat := by
  rw [positions]
  generalize (w >>> 8).toUInt8 = a
  generalize (w >>> 16).toUInt8 = b
  rcases Nat.lt_or_ge b.toNat a.toNat with hlt | hge
  · have hcomm : window a.toNat b.toNat = window b.toNat a.toNat := by
      rw [window, window, Nat.min_comm, Nat.max_comm]
    have hfirst : (window b.toNat a.toNat).1 = b.toNat := Nat.min_eq_left hlt.le
    rw [if_pos (UInt8.lt_iff_toNat_lt.mpr hlt), hcomm]
    exact Prod.ext hfirst.symm (clamp_toNat (UInt8.le_iff_toNat_le.mpr hlt.le))
  · have hfirst : (window a.toNat b.toNat).1 = a.toNat := Nat.min_eq_left hge
    rw [if_neg fun h => Nat.not_lt.mpr hge (UInt8.lt_iff_toNat_lt.mp h)]
    exact Prod.ext hfirst.symm (clamp_toNat (UInt8.le_iff_toNat_le.mpr hge))

theorem positions_le (w : UInt64) : (positions w).1 ≤ (positions w).2 := by
  have hnat := positions_toNat w
  have hle := window_le (w >>> 8).toUInt8.toNat (w >>> 16).toUInt8.toNat
  rw [← hnat] at hle
  exact hle

theorem positions_wide (w : UInt64) : (positions w).2 - (positions w).1 ≤ 32 := by
  have hnat := positions_toNat w
  have hwide := window_wide (w >>> 8).toUInt8.toNat (w >>> 16).toUInt8.toNat
  rw [← hnat] at hwide
  change ((positions w).2 - (positions w).1).toNat ≤ 32
  rw [UInt8.toNat_sub_of_le _ _ (positions_le w)]
  exact hwide

end Windows

section Kernels

/-- What a round does behind the op. -/
def afterOp (P : Primitives) (tries : Nat) (pos1 pos2 : UInt8) (st : OpState) : OpState × Bool :=
  let head := st.step3.toList.take pos2.toNat
  let diff := byteAt st.step3 pos1 - byteAt st.step3 pos2
  let st := if diff < 0x10 then
      { st with prevLhash := st.lhash + st.prevLhash, lhash := P.xxh64 head }
    else st
  let st := if diff < 0x20 then
      { st with prevLhash := st.lhash + st.prevLhash, lhash := fnv1a64 head }
    else st
  let st := if diff < 0x30 then
      let prevLhash := st.lhash + st.prevLhash
      { st with
        prevLhash := prevLhash
        lhash := P.siphash24 (UInt64.ofNat tries) prevLhash head }
    else st
  let rekeyed := diff ≤ 0x40
  let st := if rekeyed then
      let (rc4, step3) := st.rc4.xorKeyStream st.step3
      { st with rc4 := rc4, step3 := step3 }
    else st
  let last := byteAt st.step3 255 ^^^ byteAt st.step3 pos1 ^^^ byteAt st.step3 pos2
  ({ st with step3 := setByte st.step3 255 last }, rekeyed)

theorem opRound_eq (P : Primitives) (tries : Nat) (st : OpState) :
    opRound P tries st =
      let w := randomSwitcher tries st
      afterOp P tries (positions w).1 (positions w).2
        (P.applyOp w.toUInt8 (positions w).1 (positions w).2 st) := by
  unfold opRound positions randomSwitcher
  extract_lets w op pos1 pos2
  generalize (if pos1 > pos2 then (pos2, pos1) else (pos1, pos2)) = pair
  obtain ⟨a, b⟩ := pair
  change _ = afterOp P tries a (if b - a > 32 then a + ((b - a) &&& 0x1f) else b)
    (P.applyOp op a (if b - a > 32 then a + ((b - a) &&& 0x1f) else b) st)
  rfl

/-- A round asks the kernel only about its window. -/
theorem opRound_congr (P : Primitives) {f : UInt8 → UInt8 → UInt8 → OpState → OpState}
    (hf : ∀ op pos1 pos2 st, pos1 ≤ pos2 → pos2 - pos1 ≤ 32 →
      f op pos1 pos2 st = P.applyOp op pos1 pos2 st) (tries : Nat) (st : OpState) :
    opRound { P with applyOp := f } tries st = opRound P tries st := by
  rw [opRound_eq, opRound_eq]
  dsimp only
  rw [hf _ _ _ st (positions_le (randomSwitcher tries st)) (positions_wide (randomSwitcher tries st)),
    afterOp, afterOp]

theorem prepareLoop_congr (P : Primitives) {f : UInt8 → UInt8 → UInt8 → OpState → OpState}
    (hf : ∀ op pos1 pos2 st, pos1 ≤ pos2 → pos2 - pos1 ≤ 32 →
      f op pos1 pos2 st = P.applyOp op pos1 pos2 st) (fuel tries : Nat) (st : OpState)
    (data : List UInt8) (m : Marking) :
    prepareLoop { P with applyOp := f } fuel tries st data m =
      prepareLoop P fuel tries st data m := by
  induction fuel generalizing tries st data m with
  | zero => rfl
  | succ fuel ih =>
      rw [prepareLoop, prepareLoop, opRound_congr P hf]
      simp only [ih]

/-- The mining path computes the same with the vector kernel, on any processor. -/
theorem astrobwtv3Prepare_avx2 (P : Primitives) (hP : P.applyOp = Ops.applyOp P.xxh64)
    (detected : Bool) (input : List UInt8) (scratch : AstroBwtScratch) :
    astrobwtv3Prepare { P with applyOp := OpsAvx2.applyOpAvx2 P.xxh64 detected } input scratch =
      astrobwtv3Prepare P input scratch := by
  have hkernel : ∀ op pos1 pos2 st, pos1 ≤ pos2 → pos2 - pos1 ≤ 32 →
      OpsAvx2.applyOpAvx2 P.xxh64 detected op pos1 pos2 st = P.applyOp op pos1 pos2 st := by
    intro op pos1 pos2 st hle hwide
    rw [hP]
    exact OpsAvx2.applyOpAvx2_eq P.xxh64 detected hle hwide st
  have hprologue : prologue { P with applyOp := OpsAvx2.applyOpAvx2 P.xxh64 detected } input =
      prologue P input := by
    rw [prologue, prologue]
  rw [astrobwtv3Prepare, astrobwtv3Prepare, hprologue, prepareLoop_congr P hkernel]

end Kernels

section Runs

/-- `ASTROBWT_DATA_CAPACITY`. -/
def dataCapacity : Nat := 280 * 256

/-- The locals before the first round. -/
def Marking.start : Marking where
  markers := []
  templateIdx := 0
  firstChunk := 0
  chunkCount := 1

variable (P : Primitives) (input : List UInt8)

/-- The states that the loop of `astrobwtv3_prepare` comes to. -/
inductive Reached : Nat → OpState → List UInt8 → Marking → Prop
  | start : Reached 0 (prologue P input) [] Marking.start
  | round {tries : Nat} {st : OpState} {data : List UInt8} {m m' : Marking}
      (before : Reached tries st data m) (running : stops tries st = false)
      (marked : m.round (tries + 1) (opRound P (tries + 1) st).2 = some m') :
      Reached (tries + 1) (opRound P (tries + 1) st).1
        (data ++ (opRound P (tries + 1) st).1.step3.toList) m'

/-- What holds in every state: a block of the stream and at most one marker for each try,
and the next marker is written at the end of the list or over an old one. -/
structure Inside (tries : Nat) (data : List UInt8) (m : Marking) : Prop where
  tries_le : tries ≤ maxTries
  length : data.length = 256 * tries
  slot : m.templateIdx ≤ m.markers.length
  slot_lt : m.templateIdx ≤ tries - 1
  markers_le : m.markers.length ≤ tries

theorem writeV114Marker_length {markers written : List Nat} {index firstChunk chunkCount : Nat}
    (h : writeV114Marker markers index firstChunk chunkCount = some written) :
    written.length = max markers.length (index + 1) := by
  rw [writeV114Marker] at h
  split at h
  · rename_i hend
    cases h
    rw [List.length_append, List.length_singleton, hend]
    omega
  · rename_i hold
    rw [writeAt] at h
    split at h
    · rename_i hfits
      cases h
      rw [copyAt_length hfits]
      rw [List.length_singleton] at hfits
      omega
    · cases h

theorem Inside.round {tries : Nat} {data block : List UInt8} {m m' : Marking} {rekeyed : Bool}
    (h : Inside tries data m) (hlt : tries < maxTries) (hblock : block.length = 256)
    (hm : m.round (tries + 1) rekeyed = some m') : Inside (tries + 1) (data ++ block) m' := by
  have hslot := h.slot
  have hslot_lt := h.slot_lt
  have hmarkers := h.markers_le
  have hlength : (data ++ block).length = 256 * (tries + 1) := by
    rw [List.length_append, h.length, hblock]
    omega
  rw [Marking.round] at hm
  split at hm
  · obtain ⟨written, hwritten, hm⟩ := Option.bind_eq_some_iff.mp hm
    cases hm
    have hcount := writeV114Marker_length hwritten
    refine ⟨hlt, hlength, ?_, ?_, ?_⟩
    · dsimp only
      split <;> omega
    · dsimp only
      split <;> omega
    · dsimp only
      omega
  · cases hm
    exact ⟨hlt, hlength, hslot, by dsimp only; omega, by dsimp only; omega⟩

theorem Reached.inside {P : Primitives} {input : List UInt8} {tries : Nat} {st : OpState}
    {data : List UInt8} {m : Marking} (h : Reached P input tries st data m) :
    Inside tries data m := by
  induction h with
  | start => exact ⟨by decide, rfl, le_rfl, le_rfl, le_rfl⟩
  | round before running marked ih =>
      rename_i tries st data m m'
      have hlt : tries < maxTries := by
        by_contra hmax
        rw [stops_of_max st (not_lt.mp hmax)] at running
        cases running
      exact ih.round hlt Vector.length_toList marked

/-- The loop ends in a state that it comes to. -/
theorem prepareLoop_reached {P : Primitives} {input : List UInt8} (fuel : Nat) {tries : Nat}
    {st : OpState} {data : List UInt8} {m : Marking} (h : Reached P input tries st data m)
    (hrunning : stops tries st = false) {r : Nat × OpState × List UInt8 × Marking}
    (hr : prepareLoop P fuel tries st data m = some r) :
    Reached P input r.1 r.2.1 r.2.2.1 r.2.2.2 ∧ stops r.1 r.2.1 = true := by
  induction fuel generalizing tries st data m with
  | zero => cases hr
  | succ fuel ih =>
      have hnext : ∀ m', m.round (tries + 1) (opRound P (tries + 1) st).2 = some m' →
          Reached P input (tries + 1) (opRound P (tries + 1) st).1
            (data ++ (opRound P (tries + 1) st).1.step3.toList) m' :=
        fun m' hm' => h.round hrunning hm'
      rw [prepareLoop] at hr
      generalize opRound P (tries + 1) st = round at hr hnext
      obtain ⟨st', rekeyed⟩ := round
      obtain ⟨m', hm', hr⟩ := Option.bind_eq_some_iff.mp hr
      have hnext := hnext m' hm'
      dsimp only at hr hnext
      split at hr
      · rename_i hstop
        cases hr
        exact ⟨hnext, hstop⟩
      · rename_i hgo
        exact ih hnext (Bool.eq_false_iff.mpr hgo) hr

end Runs

section Buffers

open DirtybirdMiner.Astro.LargePages (LpVec Call step)

variable {T : Type}

/-- A call for which the buffer has room. -/
def Fits (v : LpVec T) : Call T → Prop
  | .clear => True
  | .extendFromSlice src _ => v.len + src.length ≤ v.capacity
  | .resize newLen _ _ => newLen ≤ v.capacity

/-- No call makes the buffer grow. -/
def FitsRun (v : LpVec T) : List (Call T) → Prop
  | [] => True
  | call :: calls => Fits v call ∧ FitsRun (step v call) calls

/-- The calls of `astrobwtv3_prepare` on its buffer: a block for each try, and the tail where
the blocks are too short for it.  The numbers are what the allocator would give in
addition. -/
def dataCalls (blocks : List (List UInt8 × Nat)) (dataLen extra : Nat) : List (Call UInt8) :=
  .clear :: blocks.map (fun b => .extendFromSlice b.1 b.2) ++
    if 256 * blocks.length < dataLen + 16 then [.resize (dataLen + 16) 0 extra] else []

theorem extend_fits {v : LpVec T} {src : List T} (extra : Nat)
    (h : v.len + src.length ≤ v.capacity) :
    (step v (.extendFromSlice src extra)).len = v.len + src.length ∧
      (step v (.extendFromSlice src extra)).capacity = v.capacity := by
  have hroom : v.len + (src.map some).length ≤ v.cells.length := by
    rw [List.length_map]
    exact h
  rw [step, LpVec.extendFromSlice, if_neg (by omega)]
  exact ⟨rfl, copyAt_length hroom⟩

theorem blocks_fit (blocks : List (List UInt8 × Nat)) (hblocks : ∀ b ∈ blocks, b.1.length = 256)
    {dataLen extra : Nat} {v : LpVec UInt8} (hv : v.len + 256 * blocks.length ≤ v.capacity)
    (htail : dataLen + 16 ≤ v.capacity) {rest : List (Call UInt8)}
    (hrest : rest = [] ∨ rest = [.resize (dataLen + 16) 0 extra]) :
    FitsRun v (blocks.map (fun b => .extendFromSlice b.1 b.2) ++ rest) := by
  induction blocks generalizing v with
  | nil =>
      rcases hrest with rfl | rfl
      · trivial
      · exact ⟨htail, trivial⟩
  | cons b blocks ih =>
      have hb := hblocks b (by simp)
      rw [List.length_cons] at hv
      have hfits : v.len + b.1.length ≤ v.capacity := by omega
      obtain ⟨hlen, hcapacity⟩ := extend_fits b.2 hfits
      refine ⟨hfits, ih (fun c hc => hblocks c (List.mem_cons_of_mem b hc)) ?_ ?_⟩
      · rw [hlen, hcapacity, hb]
        omega
      · rw [hcapacity]
        exact htail

theorem dataCalls_fit {blocks : List (List UInt8 × Nat)} (hblocks : ∀ b ∈ blocks, b.1.length = 256)
    (hcount : blocks.length ≤ maxTries) {dataLen : Nat} (htail : dataLen + 16 ≤ dataCapacity)
    {v : LpVec UInt8} (hv : dataCapacity ≤ v.capacity) (extra : Nat) :
    FitsRun v (dataCalls blocks dataLen extra) := by
  refine ⟨trivial, @blocks_fit blocks hblocks dataLen extra _ ?_ ?_ _ ?_⟩
  · change 0 + 256 * blocks.length ≤ v.capacity
    rw [maxTries] at hcount
    rw [dataCapacity] at hv
    omega
  · exact le_trans htail hv
  · split
    · exact .inr rfl
    · exact .inl rfl

end Buffers

section Bounds

variable (P : Primitives) (input : List UInt8)

/-- What a state of the loop keeps to, and the round that it makes next. -/
structure Kept (tries : Nat) (st : OpState) (data : List UInt8) (m : Marking) : Prop where
  tries_le : tries ≤ 277
  data_le : data.length ≤ dataCapacity
  window_le : (positions (randomSwitcher (tries + 1) st)).1 ≤
    (positions (randomSwitcher (tries + 1) st)).2
  window_wide : (positions (randomSwitcher (tries + 1) st)).2.toNat -
    (positions (randomSwitcher (tries + 1) st)).1.toNat ≤ 32
  no_wrap : ((positions (randomSwitcher (tries + 1) st)).1.toNat,
      (positions (randomSwitcher (tries + 1) st)).2.toNat) =
    window (randomSwitcher (tries + 1) st >>> 8).toUInt8.toNat
      (randomSwitcher (tries + 1) st >>> 16).toUInt8.toNat
  slot_le : m.templateIdx ≤ m.markers.length
  writes : ∀ rekeyed, ∃ m', m.round (tries + 1) rekeyed = some m'
  closes : ∃ markers, m.finish = some markers ∧ markers.length ≤ 277
  markers_le : m.markers.length ≤ 277

theorem Inside.kept {tries : Nat} {data : List UInt8} {m : Marking} (h : Inside tries data m)
    (st : OpState) : Kept tries st data m := by
  have htries := h.tries_le
  have hlength := h.length
  have hslot := h.slot_lt
  have hmarkers := h.markers_le
  rw [maxTries] at htries
  have hnat := positions_toNat (randomSwitcher (tries + 1) st)
  have hwide := window_wide (randomSwitcher (tries + 1) st >>> 8).toUInt8.toNat
    (randomSwitcher (tries + 1) st >>> 16).toUInt8.toNat
  rw [← hnat] at hwide
  refine ⟨htries, ?_, positions_le _, hwide, hnat, h.slot, ?_, ?_, by omega⟩
  · rw [dataCapacity]
    omega
  · intro rekeyed
    obtain ⟨m', hm', -⟩ := Marked.round_returns h.slot (tries + 1) rekeyed
    exact ⟨m', hm'⟩
  · obtain ⟨written, hwritten, -⟩ := writeV114Marker_returns m.firstChunk m.chunkCount h.slot
    have hcount := writeV114Marker_length hwritten
    refine ⟨written.take (m.templateIdx + 1), ?_, ?_⟩
    · rw [Marking.finish, hwritten]
      rfl
    · rw [List.length_take]
      omega

theorem zeroTail_length {data tailed : List UInt8} {n : Nat} (h : zeroTail data n = some tailed) :
    tailed.length = max data.length (n + 16) := by
  rw [zeroTail] at h
  generalize hgrown : (if data.length < n + 16 then resize data (n + 16) 0 else data) = grown at h
  have hlength : grown.length = max data.length (n + 16) := by
    rw [← hgrown]
    split
    · rw [resize_length]
      omega
    · omega
  rw [writeAt] at h
  split at h
  · rename_i hfits
    cases h
    rw [copyAt_length hfits, hlength]
  · cases h

theorem dataLen_bounds {tries : Nat} (step3 : Block256) (hlower : 260 < tries)
    (hupper : tries ≤ maxTries) :
    (tries - 4) * 256 ≤ dataLen tries step3 ∧ dataLen tries step3 < tries * 256 ∧
      dataLen tries step3 ≤ 70911 := by
  have hlow : (((byteAt step3 253).toNat <<< 8 ||| (byteAt step3 254).toNat) &&& 0x3ff) ≤ 0x3ff :=
    Nat.and_le_right
  rw [maxTries] at hupper
  rw [dataLen]
  omega

/-- The fields that the reference reports about its loop. -/
theorem astrobwtv3Full_debug {tries : Nat} {st : OpState} {data : List UInt8} {hash : Pow.Difficulty.Hash}
    {debug : Debug} (hloop : fullLoop P maxTries 0 (prologue P input) [] = some (tries, st, data))
    (hfull : astrobwtv3Full P input = some (hash, debug)) :
    debug.tries = tries ∧ debug.dataLen = dataLen tries st.step3 := by
  rw [astrobwtv3Full, hloop] at hfull
  obtain ⟨r, hr, hfull⟩ := Option.bind_eq_some_iff.mp hfull
  cases hr
  obtain ⟨text, -, hfull⟩ := Option.bind_eq_some_iff.mp hfull
  obtain ⟨sa, -, hfull⟩ := Option.bind_eq_some_iff.mp hfull
  cases hfull
  exact ⟨rfl, rfl⟩

/-- Where the loop ends, and what the preparation returns. -/
structure Ended (scratch : AstroBwtScratch) (tries : Nat) (st : OpState) (data : List UInt8)
    (m : Marking) (scratch' : AstroBwtScratch) (debug : Debug) : Prop where
  reached : Reached P input tries st data m
  tries_ge : 261 ≤ tries
  tries_le : tries ≤ 277
  prepared : astrobwtv3Prepare P input scratch = some (dataLen tries st.step3, scratch')
  full : ∃ hash, astrobwtv3Full P input = some (hash, debug)
  full_tries : debug.tries = tries
  full_dataLen : debug.dataLen = dataLen tries st.step3
  dataLen_ge : (tries - 4) * 256 ≤ dataLen tries st.step3
  dataLen_lt : dataLen tries st.step3 < tries * 256
  dataLen_le : dataLen tries st.step3 ≤ 70911
  data_room : dataLen tries st.step3 + 16 ≤ dataCapacity
  sa_room : dataLen tries st.step3 + V114.Model.materializedSaTailWords ≤ dataCapacity
  markers_le : scratch'.v114Markers.length ≤ 277
  data_le : scratch'.data.length ≤ dataCapacity
  data_fits : ∀ blocks : List (List UInt8 × Nat), blocks.length = tries →
    (∀ b ∈ blocks, b.1.length = 256) → ∀ v, dataCapacity ≤ v.capacity → ∀ extra,
      FitsRun v (dataCalls blocks (dataLen tries st.step3) extra)
  sa_fits : ∀ v : LargePages.LpVec Nat, dataCapacity ≤ v.capacity → ∀ extra,
    Fits v (.resize (dataLen tries st.step3 + V114.Model.materializedSaTailWords) 0 extra)
  tail_zero : slice scratch'.data (dataLen tries st.step3) 16 = List.replicate 16 0
  text_kept : scratch'.data.take (dataLen tries st.step3) = data.take (dataLen tries st.step3)

/-- Both loops end, with the same stream. -/
theorem prepareLoop_ends : ∃ tries st data m,
    fullLoop P maxTries 0 (prologue P input) [] = some (tries, st, data) ∧
      prepareLoop P maxTries 0 (prologue P input) [] Marking.start = some (tries, st, data, m) ∧
      260 < tries ∧ tries ≤ maxTries ∧ data.length = 256 * tries := by
  obtain ⟨⟨n, s, stream⟩, hloop, hlower, hupper, hlength⟩ :=
    fullLoop_returns P maxTries (prologue P input) (Nat.zero_add _) (by decide)
      (show ([] : List UInt8).length = 256 * 0 from rfl)
  dsimp only at hlower hupper hlength
  obtain ⟨⟨tries, st, data, m⟩, hprepare, heq, -⟩ :=
    prepareLoop_returns P maxTries 0 _ _ (m := Marking.start) le_rfl hloop
  obtain ⟨htries, hrest⟩ := Prod.mk.inj heq
  obtain ⟨hst, hdata⟩ := Prod.mk.inj hrest
  dsimp only at htries hst hdata
  subst htries hst hdata
  exact ⟨tries, st, data, m, hloop, hprepare, hlower, hupper, hlength⟩

end Bounds

end DirtybirdMiner.Astro.Rounds
