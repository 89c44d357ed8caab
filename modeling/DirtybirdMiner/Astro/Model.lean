import DirtybirdMiner.Sais.Model
import DirtybirdMiner.V114.Model

/-!
The AstroBWTv3 hash, from `astrobwt/src/lib.rs`, `rc4.rs` and the v114 entry
points of `sais32.rs`: the reference `astrobwtv3_full`, the mining path
`astrobwtv3_with_scratch` over a scratch that is reused from hash to hash, and
the two-lane `astrobwtv3_x2`.

The build is the mining one, on a little-endian target: the `v114` and `shani2`
features are on, the `libsais`, `v114-cpp` and `avx2ops` features are off.
SHA-256, Salsa20, xxHash64, SipHash and the op kernel are parameters.
-/

namespace DirtybirdMiner.Astro.Model

open DirtybirdMiner.Lib.Bytes
open DirtybirdMiner.Lib.Checked
open DirtybirdMiner.Lib.Buffers
open DirtybirdMiner.Pow.Difficulty
open DirtybirdMiner.Sais.Model
open DirtybirdMiner.V114.Model

/-- `[u8; 256]`. -/
abbrev Block256 : Type := Vector UInt8 256

/-- `s[i as usize]` for a byte `i`. -/
def byteAt (s : Block256) (i : UInt8) : UInt8 := s.get ⟨i.toNat, i.toNat_lt⟩

/-- `s[i as usize] = v` for a byte `i`. -/
def setByte (s : Block256) (i v : UInt8) : Block256 := s.set i.toNat v i.toNat_lt

section Rc4

structure Rc4 where
  s : Block256
  i : UInt8
  j : UInt8

def swapBytes (s : Block256) (i j : UInt8) : Block256 :=
  setByte (setByte s i (byteAt s j)) j (byteAt s i)

/-- Every caller passes a key of 256 bytes, so `key[i % k]` is `key[i]`. -/
def Rc4.new (key : Block256) : Rc4 :=
  let (s, _) := (List.range 256).foldl (fun (st : Block256 × UInt8) i =>
    let i := UInt8.ofNat i
    let j := st.2 + byteAt st.1 i + byteAt key i
    (swapBytes st.1 i j, j)) (Vector.ofFn fun i => UInt8.ofNat i, 0)
  { s := s, i := 0, j := 0 }

/-- The next byte of the key stream. -/
def Rc4.next (c : Rc4) : UInt8 × Rc4 :=
  let i := c.i + 1
  let x := byteAt c.s i
  let j := c.j + x
  let y := byteAt c.s j
  let s := setByte (setByte c.s i y) j x
  (byteAt s (x + y), { s := s, i := i, j := j })

def Rc4.xorKeyStream (c : Rc4) (buf : Block256) : Rc4 × Block256 :=
  (List.range 256).foldl (fun (st : Rc4 × Block256) k =>
    let k := UInt8.ofNat k
    let (b, c) := st.1.next
    (c, setByte st.2 k (byteAt st.2 k ^^^ b))) (c, buf)

end Rc4

section OpLoop

def fnv64Offset : UInt64 := 0xcbf29ce484222325

def fnv64Prime : UInt64 := 0x00000100000001b3

def fnv1a64 (data : List UInt8) : UInt64 :=
  data.foldl (fun h b => (h ^^^ b.toUInt64) * fnv64Prime) fnv64Offset

/-- The locals that the op loop updates. -/
structure OpState where
  step3 : Block256
  lhash : UInt64
  prevLhash : UInt64
  rc4 : Rc4

/-- The hash functions of other crates, the two-stream SHA-256 and the op kernel
`ops_generated::apply_op`. -/
structure Primitives where
  sha256 : List UInt8 → Hash
  salsa20Keystream256 : Hash → Block256
  xxh64 : List UInt8 → UInt64
  siphash24 : UInt64 → UInt64 → List UInt8 → UInt64
  applyOp : UInt8 → UInt8 → UInt8 → OpState → OpState
  sha256X2 : List UInt8 → List UInt8 → Hash × Hash
  sha256X2_eq : ∀ a b, sha256X2 a b = (sha256 a, sha256 b)

variable (P : Primitives)

/-- Steps 1 to 4. -/
def prologue (input : List UInt8) : OpState :=
  let shaKey := P.sha256 input
  let step3 := P.salsa20Keystream256 shaKey
  let (rc4, step3) := (Rc4.new step3).xorKeyStream step3
  let lhash := fnv1a64 step3.toList
  { step3 := step3, lhash := lhash, prevLhash := lhash, rc4 := rc4 }

/-- One round of the loop.  The flag says whether the key stream was applied. -/
def opRound (tries : Nat) (st : OpState) : OpState × Bool :=
  let randomSwitcher := st.prevLhash ^^^ st.lhash ^^^ UInt64.ofNat tries
  let op := randomSwitcher.toUInt8
  let pos1 := (randomSwitcher >>> 8).toUInt8
  let pos2 := (randomSwitcher >>> 16).toUInt8
  let (pos1, pos2) := if pos1 > pos2 then (pos2, pos1) else (pos1, pos2)
  let pos2 := if pos2 - pos1 > 32 then pos1 + ((pos2 - pos1) &&& 0x1f) else pos2
  let st := P.applyOp op pos1 pos2 st
  let head := st.step3.toList.take pos2.toNat
  let diff := byteAt st.step3 pos1 - byteAt st.step3 pos2
  let st := if diff < 0x10 then
      { st with prevLhash := st.lhash + st.prevLhash, lhash := P.xxh64 head }
    else st
  let st := if diff < 0x20 then
      { st with prevLhash := st.lhash + st.prevLhash, lhash := fnv1a64 head }
    else st
  let st := if diff < 0x30 then
      let prevLhash := st.lhash + st.prevLhash
      { st with
        prevLhash := prevLhash
        lhash := P.siphash24 (UInt64.ofNat tries) prevLhash head }
    else st
  let rekeyed := diff ≤ 0x40
  let st := if rekeyed then
      let (rc4, step3) := st.rc4.xorKeyStream st.step3
      { st with rc4 := rc4, step3 := step3 }
    else st
  let last := byteAt st.step3 255 ^^^ byteAt st.step3 pos1 ^^^ byteAt st.step3 pos2
  ({ st with step3 := setByte st.step3 255 last }, rekeyed)

/-- The condition that ends the loop. -/
def stops (tries : Nat) (st : OpState) : Bool :=
  tries > 260 + 16 || (byteAt st.step3 255 ≥ 0xf0 && tries > 260)

/-- `data_len`. -/
def dataLen (tries : Nat) (step3 : Block256) : Nat :=
  (tries - 4) * 256 +
    (((byteAt step3 253).toNat <<< 8 ||| (byteAt step3 254).toNat) &&& 0x3ff)

/-- The loop of `astrobwtv3_full`, for at most `fuel` rounds. -/
def fullLoop : Nat → Nat → OpState → List UInt8 → Option (Nat × OpState × List UInt8)
  | 0, _, _, _ => none
  | fuel + 1, tries, st, data =>
      let tries := tries + 1
      let st := (opRound P tries st).1
      let data := data ++ st.step3.toList
      if stops tries st then some (tries, st, data) else fullLoop fuel tries st data

/-- The rounds that the loops can make. -/
def maxTries : Nat := 260 + 17

end OpLoop

section Reference

variable (P : Primitives)

/-- The entries of a suffix array as 32-bit words. -/
def saWords (sa : Array Int) : List Nat := sa.toList.map fun x => (x % 2 ^ 32).toNat

def sha256SaI32Le (sa : List Nat) : Hash := P.sha256 (castSlice sa)

structure Debug where
  tries : Nat
  dataLen : Nat
  lhash : UInt64
  prevLhash : UInt64
  step3 : Block256
  dataHash : Hash
  output : Hash

def astrobwtv3Full (input : List UInt8) : Option (Hash × Debug) := do
  let (tries, st, data) ← fullLoop P maxTries 0 (prologue P input) []
  let dl := dataLen tries st.step3
  let text ← readAt data 0 dl
  let sa ← suffixArray32 text.toArray
  let output := sha256SaI32Le P (saWords sa)
  some (output, {
    tries := tries
    dataLen := dl
    lhash := st.lhash
    prevLhash := st.prevLhash
    step3 := st.step3
    dataHash := P.sha256 text
    output := output })

end Reference

section Preparing

/-- `AstroBwtScratch`. -/
structure AstroBwtScratch where
  data : List UInt8
  sa : List Nat
  v114Markers : List Nat
  v114Flags : List UInt8

/-- `AstroBwtScratch::new`. -/
def AstroBwtScratch.new : AstroBwtScratch where
  data := []
  sa := []
  v114Markers := []
  v114Flags := []

def writeV114Marker (markers : List Nat) (index firstChunk chunkCount : Nat) :
    Option (List Nat) :=
  let marker := (firstChunk <<< 7 ||| chunkCount) % 2 ^ 16
  if index = markers.length then some (markers ++ [marker]) else writeAt markers index [marker]

/-- The marker list and the locals `v114_*` of the op loop. -/
structure Marking where
  markers : List Nat
  templateIdx : Nat
  firstChunk : Nat
  chunkCount : Nat

/-- The bookkeeping of one round. -/
def Marking.round (m : Marking) (tries : Nat) (rekeyed : Bool) : Option Marking :=
  if rekeyed then do
    let markers ← writeV114Marker m.markers m.templateIdx m.firstChunk m.chunkCount
    some {
      markers := markers
      templateIdx := if tries > 1 then m.templateIdx + 1 else m.templateIdx
      firstChunk := tries - 1
      chunkCount := 1 }
  else some { m with chunkCount := m.chunkCount + 1 }

/-- The last marker; the list is cut behind it. -/
def Marking.finish (m : Marking) : Option (List Nat) := do
  let markers ← writeV114Marker m.markers m.templateIdx m.firstChunk m.chunkCount
  some (markers.take (m.templateIdx + 1))

variable (P : Primitives)

/-- The loop of `astrobwtv3_prepare`, for at most `fuel` rounds. -/
def prepareLoop : Nat → Nat → OpState → List UInt8 → Marking →
    Option (Nat × OpState × List UInt8 × Marking)
  | 0, _, _, _, _ => none
  | fuel + 1, tries, st, data, m => do
      let tries := tries + 1
      let (st, rekeyed) := opRound P tries st
      let m ← m.round tries rekeyed
      let data := data ++ st.step3.toList
      if stops tries st then some (tries, st, data, m) else prepareLoop fuel tries st data m

/-- The sixteen bytes behind the text are set to zero. -/
def zeroTail (data : List UInt8) (dataLen : Nat) : Option (List UInt8) :=
  let tailEnd := dataLen + 16
  let data := if data.length < tailEnd then resize data tailEnd 0 else data
  writeAt data dataLen (List.replicate 16 0)

/-- Returns `data_len` and the scratch. -/
def astrobwtv3Prepare (input : List UInt8) (scratch : AstroBwtScratch) :
    Option (Nat × AstroBwtScratch) := do
  let (tries, st, data, m) ← prepareLoop P maxTries 0 (prologue P input) [] {
    markers := []
    templateIdx := 0
    firstChunk := 0
    chunkCount := 1 }
  let markers ← m.finish
  let dl := dataLen tries st.step3
  let data ← zeroTail data dl
  some (dl, { scratch with data := data, v114Markers := markers })

end Preparing

section Backends

/-- The switches read from the environment, once a process: `DERO_MATERIALIZE`,
`DERO_NO_FUSE` and the one of the streaming emitters. -/
structure Mode where
  materialize : Bool
  noFuse : Bool
  count1Singletons : Bool

/-- One marker: the boundary behind its chunks is flagged, if it is inside. -/
def flagBoundary (flagsLen : Nat) (flags : List UInt8) (marker : Nat) : List UInt8 :=
  let startGroup := marker >>> 7
  let groupCount := marker &&& 0x7f
  let boundary := startGroup + groupCount
  if groupCount ≠ 0 ∧ boundary > 0 ∧ boundary < flagsLen then flags.set boundary 1 else flags

/-- Returns the number of flags, if any, and the flags. -/
def buildV114Stage5Flags (markers : List Nat) (logicalLen : Nat) (flags : List UInt8) :
    Option Nat × List UInt8 :=
  if logicalLen = 0 then (none, flags)
  else if logicalLen ≥ 2 ^ 32 then (none, flags)
  else
    let flagsLen := logicalLen >>> 8 + 1
    let flags := (List.replicate flagsLen 0).set 0 1
    (some flagsLen, (markers.take (min markers.length 277)).foldl (flagBoundary flagsLen) flags)

/-- The buffers that a call of a backend changes: flags, suffix array and the
thread-local scratch of the descriptor backend. -/
structure BackendState where
  flags : List UInt8
  sa : List Nat
  fused : FusedScratch

def suffixArrayV114Into (data : List UInt8) (logicalLen : Nat) (markers : List Nat)
    (s : BackendState) : Option (Bool × BackendState) :=
  if logicalLen = 0 then some (true, { s with sa := [] })
  else if logicalLen ≥ 2 ^ 32 then some (false, s)
  else if data.length < logicalLen + 3 then some (false, s)
  else
    match buildV114Stage5Flags markers logicalLen s.flags with
    | (none, flags) => some (false, { s with flags := flags })
    | (some flagLen, flags) => do
        let paddedLen := logicalLen + materializedSaTailWords
        let sa := if s.sa.length < paddedLen then resize s.sa paddedLen 0 else s.sa
        let used ← readAt flags 0 flagLen
        let (built, front, fused) ←
          saBuildCompactFused data logicalLen used (sa.take paddedLen) s.fused
        some (built, { flags := flags, sa := front ++ sa.drop paddedLen, fused := fused })

variable (P : Primitives)

def hashV114FusedInto (mode : Mode) (data : List UInt8) (logicalLen : Nat) (markers : List Nat)
    (s : BackendState) : Option (Option Hash × BackendState) :=
  if mode.noFuse then some (none, s)
  else if logicalLen = 0 then some (none, s)
  else if logicalLen ≥ 2 ^ 32 then some (none, s)
  else if data.length < logicalLen + 3 then some (none, s)
  else
    match buildV114Stage5Flags markers logicalLen s.flags with
    | (none, flags) => some (none, { s with flags := flags })
    | (some flagLen, flags) => do
        let used ← readAt flags 0 flagLen
        let (hash, fused) ←
          hashCompactFused P.sha256 data logicalLen used mode.count1Singletons s.fused
        some (hash, { s with flags := flags, fused := fused })

/-- The digest of the suffix array that the descriptor backend built, or of the one
that SA-IS builds when it refused. -/
def digestLane (data : List UInt8) (len : Nat) (used : Bool) (sa : List Nat) : Option Hash :=
  if used then do
    let front ← readAt sa 0 len
    some (sha256SaI32Le P front)
  else do
    let text ← readAt data 0 len
    let sa ← suffixArray32 text.toArray
    some (sha256SaI32Le P (saWords sa))

/-- Build the suffix array, then hash it. -/
def hashMaterialized (data : List UInt8) (len : Nat) (markers : List Nat) (s : BackendState) :
    Option (Hash × BackendState) := do
  let (used, s) ← suffixArrayV114Into data len markers s
  let hash ← digestLane P data len used s.sa
  some (hash, s)

/-- Steps 6 and 7 of `astrobwtv3_with_scratch`. -/
def finishHash (mode : Mode) (data : List UInt8) (len : Nat) (markers : List Nat)
    (s : BackendState) : Option (Hash × BackendState) :=
  if mode.materialize then hashMaterialized P data len markers s
  else do
    let (fusedHash, s) ← hashV114FusedInto P mode data len markers s
    match fusedHash with
    | some h => some (h, s)
    | none => hashMaterialized P data len markers s

end Backends

section EntryPoints

variable (P : Primitives)

/-- The buffers of a lane that the backend works on. -/
def AstroBwtScratch.backend (scratch : AstroBwtScratch) (fused : FusedScratch) : BackendState where
  flags := scratch.v114Flags
  sa := scratch.sa
  fused := fused

def AstroBwtScratch.put (scratch : AstroBwtScratch) (s : BackendState) : AstroBwtScratch :=
  { scratch with v114Flags := s.flags, sa := s.sa }

/-- Returns the hash, the scratch and the thread-local scratch. -/
def astrobwtv3WithScratch (mode : Mode) (input : List UInt8) (scratch : AstroBwtScratch)
    (fused : FusedScratch) : Option (Hash × AstroBwtScratch × FusedScratch) := do
  let (len, scratch) ← astrobwtv3Prepare P input scratch
  let (hash, s) ← finishHash P mode scratch.data len scratch.v114Markers (scratch.backend fused)
  some (hash, scratch.put s, s.fused)

/-- The two lanes after their preparation: both suffix arrays, then one two-stream
digest, or a digest for each lane when one of the builds refused. -/
def finishHashX2 (lenA lenB : Nat) (sa sb : AstroBwtScratch) (fused : FusedScratch) :
    Option ((Hash × Hash) × AstroBwtScratch × AstroBwtScratch × FusedScratch) := do
  let (usedA, s) ← suffixArrayV114Into sa.data lenA sa.v114Markers (sa.backend fused)
  let sa := sa.put s
  let (usedB, s) ← suffixArrayV114Into sb.data lenB sb.v114Markers (sb.backend s.fused)
  let sb := sb.put s
  if usedA && usedB then do
    let frontA ← readAt sa.sa 0 lenA
    let frontB ← readAt sb.sa 0 lenB
    some (P.sha256X2 (castSlice frontA) (castSlice frontB), sa, sb, s.fused)
  else do
    let hashA ← digestLane P sa.data lenA usedA sa.sa
    let hashB ← digestLane P sb.data lenB usedB sb.sa
    some ((hashA, hashB), sa, sb, s.fused)

def astrobwtv3X2 (inputA inputB : List UInt8) (sa sb : AstroBwtScratch) (fused : FusedScratch) :
    Option ((Hash × Hash) × AstroBwtScratch × AstroBwtScratch × FusedScratch) := do
  let (lenA, sa) ← astrobwtv3Prepare P inputA sa
  let (lenB, sb) ← astrobwtv3Prepare P inputB sb
  finishHashX2 P lenA lenB sa sb fused

/-- `astrobwtv3`: a hash over a fresh scratch. -/
def astrobwtv3 (mode : Mode) (input : List UInt8) (fused : FusedScratch) :
    Option (Hash × FusedScratch) := do
  let (hash, _, fused) ← astrobwtv3WithScratch P mode input AstroBwtScratch.new fused
  some (hash, fused)

end EntryPoints

end DirtybirdMiner.Astro.Model
