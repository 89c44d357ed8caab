import DirtybirdMiner.Lib.Sha256
import DirtybirdMiner.Lib.Checked

/-!
Two-stream SHA-256, from `astrobwt/src/sha256_x2.rs`: the driver of the x86 extensions, with a
mask on each lane and the assembly as an argument, and the driver of the ARM extensions, with
the block macro after the documented semantics of its instructions.  Registers are groups of
four words, the lowest first.  `none` is an overflow of the length in bits.
-/

namespace DirtybirdMiner.Astro.Sha256x2

open DirtybirdMiner.Lib.Bytes
open DirtybirdMiner.Lib.Checked
open DirtybirdMiner.Lib.Sha256

section Tail

/-- `tail`: two blocks for the end of the input, and how many of them are used. -/
def tail (input : List UInt8) : Option (List (List UInt8) × Nat) := do
  let rem := input.length % 64
  let zero := List.replicate 64 0
  let first := copyAt zero 0 (input.drop (input.length - rem))
  let first := first.set rem 0x80
  let blocks := if rem < 56 then 1 else 2
  require (input.length * 8 < 2 ^ 64)
  let bits := beBytes 8 (input.length * 8)
  some ([first, zero].modify (blocks - 1) fun block => copyAt block 56 bits, blocks)

/-- The words of the state, in their order, as bytes: `finish` on both architectures. -/
def finish (state : List UInt32) : List UInt8 := state.flatMap fun word => beBytes 4 word.toNat

end Tail

namespace X86

/-- `_mm_shuffle_epi32`: two bits of the immediate for each lane. -/
def shuffleEpi32 (v : Quad) (imm : Nat) : Quad :=
  let lane (i : Nat) := [v.w0, v.w1, v.w2, v.w3].getD (imm >>> (2 * i) &&& 3) 0
  ⟨lane 0, lane 1, lane 2, lane 3⟩

/-- `_mm_alignr_epi8(a, b, 8)`. -/
def alignrEpi8 (a b : Quad) : Quad := ⟨b.w2, b.w3, a.w0, a.w1⟩

/-- `_mm_blend_epi16(a, b, 0xf0)`. -/
def blendEpi16 (a b : Quad) : Quad := ⟨a.w0, a.w1, b.w2, b.w3⟩

/-- `_mm_set_epi64x`. -/
def setEpi64x (e1 e0 : Nat) : List UInt8 := leBytes 8 e0 ++ leBytes 8 e1

/-- `_mm_shuffle_epi8`. -/
def shuffleEpi8 (v mask : List UInt8) : List UInt8 :=
  mask.map fun m => if 0x80 ≤ m then 0 else v.getD (m &&& 0x0f).toNat 0

/-- `_mm_loadu_si128`, as lanes. -/
def lanes (v : List UInt8) : Quad :=
  let lane (i : Nat) := UInt32.ofNat (leValue (slice v (4 * i) 4))
  ⟨lane 0, lane 1, lane 2, lane 3⟩

/-- The two registers of a lane. -/
structure Pair where
  abef : Quad
  cdgh : Quad
deriving DecidableEq

/-- `load_state`. -/
def loadState (state : State) : Pair :=
  let dcba := ⟨state.a, state.b, state.c, state.d⟩
  let efgh := shuffleEpi32 ⟨state.e, state.f, state.g, state.h⟩ 0x1b
  let cdab := shuffleEpi32 dcba 0xb1
  { abef := alignrEpi8 cdab efgh
    cdgh := blendEpi16 efgh cdab }

/-- `store_state`. -/
def storeState (p : Pair) : State :=
  let feba := shuffleEpi32 p.abef 0x1b
  let dchg := shuffleEpi32 p.cdgh 0xb1
  let low := blendEpi16 feba dchg
  let high := alignrEpi8 dchg feba
  ⟨low.w0, low.w1, low.w2, low.w3, high.w0, high.w1, high.w2, high.w3⟩

/-- The message registers of a block. -/
def loadBlock (block : List UInt8) : Window :=
  let mask := setEpi64x 0x0c0d0e0f08090a0b 0x0405060700010203
  let window (i : Nat) := lanes (shuffleEpi8 (slice block (16 * i) 16) mask)
  ⟨window 0, window 1, window 2, window 3⟩

/-- The block of an input at an iteration. -/
def blockAt (input : List UInt8) (tail : List (List UInt8)) (full n i : Nat) : List UInt8 :=
  if i < full then slice input (i * 64) 64
  else if i < full + n then tail.getD (i - full) []
  else List.replicate 64 0

/-- The registers of a lane after the assembly, added to the saved ones or replaced by them. -/
def settle (active : Bool) (save new : Pair) : Pair :=
  if active then { abef := new.abef.add save.abef, cdgh := new.cdgh.add save.cdgh } else save

/-- The assembly: the two pairs and the message registers of both lanes. -/
abbrev Assembly : Type := Pair → Pair → Window → Window → Pair × Pair

variable (asm : Assembly)

/-- `hash`.  Clearing the upper halves of the registers first leaves every value as it is. -/
def hash (a b : List UInt8) : Option (List UInt8 × List UInt8) := do
  let (atail, an) ← tail a
  let (btail, bn) ← tail b
  let afull := a.length / 64
  let bfull := b.length / 64
  let blocks := max (afull + an) (bfull + bn)
  let (pa, pb) := (List.range blocks).foldl (fun (pa, pb) i =>
    let ba := blockAt a atail afull an i
    let bb := blockAt b btail bfull bn i
    let (newA, newB) := asm pa pb (loadBlock ba) (loadBlock bb)
    (settle (i < afull + an) pa newA, settle (i < bfull + bn) pb newB))
    (loadState initial, loadState initial)
  let sa := storeState pa
  let sb := storeState pb
  some (finish [sa.a, sa.b, sa.c, sa.d, sa.e, sa.f, sa.g, sa.h],
    finish [sb.a, sb.b, sb.c, sb.d, sb.e, sb.f, sb.g, sb.h])

/-- One call of the assembly performs the rounds on both lanes. -/
def PerformsRounds : Prop :=
  ∀ (s t : State) (v w : Window),
    asm (loadState s) (loadState t) v w = (loadState (rounds s v), loadState (rounds t w))

end X86

namespace Aarch64

/-- `INITIAL`. -/
def initialWords : List UInt32 :=
  [0x6a09e667, 0xbb67ae85, 0x3c6ef372, 0xa54ff53a, 0x510e527f, 0x9b05688c, 0x1f83d9ab,
    0x5be0cd19]

/-- `K`. -/
def k : List UInt32 :=
  [0x428a2f98, 0x71374491, 0xb5c0fbcf, 0xe9b5dba5, 0x3956c25b, 0x59f111f1, 0x923f82a4,
    0xab1c5ed5, 0xd807aa98, 0x12835b01, 0x243185be, 0x550c7dc3, 0x72be5d74, 0x80deb1fe,
    0x9bdc06a7, 0xc19bf174, 0xe49b69c1, 0xefbe4786, 0x0fc19dc6, 0x240ca1cc, 0x2de92c6f,
    0x4a7484aa, 0x5cb0a9dc, 0x76f988da, 0x983e5152, 0xa831c66d, 0xb00327c8, 0xbf597fc7,
    0xc6e00bf3, 0xd5a79147, 0x06ca6351, 0x14292967, 0x27b70a85, 0x2e1b2138, 0x4d2c6dfc,
    0x53380d13, 0x650a7354, 0x766a0abb, 0x81c2c92e, 0x92722c85, 0xa2bfe8a1, 0xa81a664b,
    0xc24b8b70, 0xc76c51a3, 0xd192e819, 0xd6990624, 0xf40e3585, 0x106aa070, 0x19a4c116,
    0x1e376c08, 0x2748774c, 0x34b0bcb5, 0x391c0cb3, 0x4ed8aa4a, 0x5b9cca4f, 0x682e6ff3,
    0x748f82ee, 0x78a5636f, 0x84c87814, 0x8cc70208, 0x90befffa, 0xa4506ceb, 0xbef9a3f7,
    0xc67178f2]

/-- `vld1q_u32`, from the `i`-th word on. -/
def vld1qU32 (words : List UInt32) (i : Nat) : Quad := Quad.ofWords words i

/-- `vrev32q_u8`: the bytes of each word the other way. -/
def vrev32qU8 (v : List UInt8) : List UInt8 :=
  (List.range 16).map fun i => v.getD (i / 4 * 4 + (3 - i % 4)) 0

/-- `vreinterpretq_u32_u8`. -/
def vreinterpretqU32U8 (v : List UInt8) : Quad := X86.lanes v

/-- The working variables in two registers. -/
structure Pair where
  abcd : Quad
  efgh : Quad
deriving DecidableEq

def stateOf (abcd efgh : Quad) : State :=
  ⟨abcd.w0, abcd.w1, abcd.w2, abcd.w3, efgh.w0, efgh.w1, efgh.w2, efgh.w3⟩

/-- `vsha256hq_u32`: the first half of the variables after four rounds. -/
def vsha256hqU32 (abcd efgh wk : Quad) : Quad :=
  let s := (stateOf abcd efgh).four wk
  ⟨s.a, s.b, s.c, s.d⟩

/-- `vsha256h2q_u32`: the second half. -/
def vsha256h2qU32 (efgh abcd wk : Quad) : Quad :=
  let s := (stateOf abcd efgh).four wk
  ⟨s.e, s.f, s.g, s.h⟩

/-- `vsha256su0q_u32`. -/
def vsha256su0qU32 (w0 w4 : Quad) : Quad :=
  ⟨w0.w0 + smallSigma0 w0.w1, w0.w1 + smallSigma0 w0.w2, w0.w2 + smallSigma0 w0.w3,
    w0.w3 + smallSigma0 w4.w0⟩

/-- `vsha256su1q_u32`: the upper lanes use the new lower ones. -/
def vsha256su1qU32 (t w8 w12 : Quad) : Quad :=
  let r0 := t.w0 + w8.w1 + smallSigma1 w12.w2
  let r1 := t.w1 + w8.w2 + smallSigma1 w12.w3
  ⟨r0, r1, t.w2 + w8.w3 + smallSigma1 r0, t.w3 + w12.w0 + smallSigma1 r1⟩

/-- The macro `quad`. -/
def quad (p : Pair) (w : Quad) (i : Nat) : Pair :=
  let tmp := w.add (vld1qU32 k i)
  let prev := p.abcd
  { abcd := vsha256hqU32 prev p.efgh tmp
    efgh := vsha256h2qU32 p.efgh prev tmp }

/-- The body of the loop of the macro `block`. -/
def quads : Pair × Window → Nat → Pair × Window
  | (p, ⟨w0, w1, w2, w3⟩), i =>
      let w0 := vsha256su1qU32 (vsha256su0qU32 w0 w1) w2 w3
      let p := quad p w0 i
      let w1 := vsha256su1qU32 (vsha256su0qU32 w1 w2) w3 w0
      let p := quad p w1 (i + 4)
      let w2 := vsha256su1qU32 (vsha256su0qU32 w2 w3) w0 w1
      let p := quad p w2 (i + 8)
      let w3 := vsha256su1qU32 (vsha256su0qU32 w3 w0) w1 w2
      let p := quad p w3 (i + 12)
      (p, ⟨w0, w1, w2, w3⟩)

/-- The macro `block`. -/
def block (p : Pair) (bytes : List UInt8) : Pair :=
  let load (i : Nat) := vreinterpretqU32U8 (vrev32qU8 (slice bytes i 16))
  let w0 := load 0
  let w1 := load 16
  let w2 := load 32
  let w3 := load 48
  let q := quad (quad (quad (quad p w0 0) w1 4) w2 8) w3 12
  -- the counter goes from 16 by sixteens while it is below 64
  let q := ([16, 32, 48].foldl quads (q, ⟨w0, w1, w2, w3⟩)).1
  { abcd := q.abcd.add p.abcd
    efgh := q.efgh.add p.efgh }

def finishPair (p : Pair) : List UInt8 :=
  finish [p.abcd.w0, p.abcd.w1, p.abcd.w2, p.abcd.w3, p.efgh.w0, p.efgh.w1, p.efgh.w2, p.efgh.w3]

/-- `hash`. -/
def hash (a b : List UInt8) : Option (List UInt8 × List UInt8) := do
  let start : Pair := ⟨vld1qU32 initialWords 0, vld1qU32 initialWords 4⟩
  let na := a.length / 64
  let nb := b.length / 64
  let paired := min na nb
  let (pa, pb) := (List.range paired).foldl (fun (pa, pb) i =>
    (block pa (slice a (i * 64) 64), block pb (slice b (i * 64) 64))) (start, start)
  let pa := (List.range' paired (na - paired)).foldl (fun p i => block p (slice a (i * 64) 64)) pa
  let pb := (List.range' paired (nb - paired)).foldl (fun p i => block p (slice b (i * 64) 64)) pb
  let (ta, tan) ← tail a
  let pa := (ta.take tan).foldl block pa
  let (tb, tbn) ← tail b
  let pb := (tb.take tbn).foldl block pb
  some (finishPair pa, finishPair pb)

end Aarch64

section Blocks

theorem modify_zero {α : Type} (x y : α) (f : α → α) : [x, y].modify 0 f = [f x, y] := rfl

/-- The end of the input in its blocks. -/
theorem first_eq {rest : List UInt8} (h : rest.length < 64) :
    (copyAt (List.replicate 64 0) 0 rest).set rest.length 0x80 =
      rest ++ 0x80 :: List.replicate (63 - rest.length) 0 := by
  obtain ⟨m, hm⟩ : ∃ m, 64 - rest.length = m + 1 := ⟨63 - rest.length, by omega⟩
  have hzeros : (List.replicate 64 (0 : UInt8)).drop (0 + rest.length) =
      0 :: List.replicate m 0 := by
    rw [List.drop_replicate, Nat.zero_add, hm, List.replicate_succ]
  rw [copyAt, hzeros, List.take_zero, List.nil_append,
    List.set_append_right (h := Nat.le_refl _), Nat.sub_self, List.set_cons_zero,
    show 63 - rest.length = m by omega]

theorem copyAt_last {front bits : List UInt8} (hfront : front.length = 56)
    (hbits : bits.length = 8) : copyAt (front ++ List.replicate 8 0) 56 bits = front ++ bits := by
  have hrest : (front ++ List.replicate 8 (0 : UInt8)).drop (56 + bits.length) = [] := by
    apply List.drop_of_length_le
    rw [List.length_append, List.length_replicate, hfront, hbits]
  rw [copyAt, List.take_left' hfront, hrest, List.append_nil]

/-- The blocks of a padded input: its own full blocks, then those of the tail that are used. -/
theorem tail_blocks {input : List UInt8} (h : input.length < 2 ^ 61) :
    ∃ out n, tail input = some (out, n) ∧ n ≤ out.length ∧
      blocks (pad input) =
        (List.range (input.length / 64)).map (fun i => slice input (i * 64) 64) ++ out.take n := by
  have hsplit := Nat.div_add_mod input.length 64
  have hback : input.length - input.length % 64 = input.length / 64 * 64 := by omega
  have hrest : (input.drop (input.length / 64 * 64)).length = input.length % 64 := by
    rw [List.length_drop]
    omega
  have hshort : (input.drop (input.length / 64 * 64)).length < 64 := by omega
  have hfull : blocks (input.take (input.length / 64 * 64)) =
      (List.range (input.length / 64)).map fun i => slice input (i * 64) 64 := by
    have hlength : (input.take (input.length / 64 * 64)).length / 64 = input.length / 64 := by
      rw [List.length_take]
      omega
    rw [blocks, hlength]
    apply List.map_congr_left
    intro i hi
    have hi := List.mem_range.mp hi
    rw [slice, slice, List.drop_take, List.take_take, Nat.min_eq_left (by omega)]
  have hpad := @blocks_pad _ _ (input.length / 64) (by omega) rfl hshort
  have hfirst := first_eq hshort
  rw [hrest] at hpad hfirst
  rw [hfull] at hpad
  unfold tail
  simp only [hback, hfirst, require_eq_some (show 8 * input.length < 2 ^ 64 by omega),
    Nat.mul_comm input.length 8, Option.bind_eq_bind, Option.bind_some]
  rcases Nat.lt_or_ge (input.length % 64) 56 with hone | htwo
  · rw [if_pos hone] at hpad ⊢
    refine ⟨_, _, rfl, by simp, ?_⟩
    have hzeros : 63 - input.length % 64 = (55 - input.length % 64) + 8 := by omega
    have hfront : (input.drop (input.length / 64 * 64) ++
        0x80 :: List.replicate (55 - input.length % 64) (0 : UInt8)).length = 56 := by
      rw [List.length_append, List.length_cons, List.length_replicate]
      omega
    have hcopy := copyAt_last hfront (beBytes_length 8 (8 * input.length))
    rw [List.append_assoc, List.append_assoc, List.cons_append, List.cons_append,
      List.replicate_append_replicate, ← hzeros] at hcopy
    rw [hpad, Nat.sub_self, modify_zero, hcopy]
    rfl
  · rw [if_neg (Nat.not_lt.mpr htwo)] at hpad ⊢
    refine ⟨_, _, rfl, by simp, ?_⟩
    rw [hpad]
    rfl

/-- All blocks have 64 bytes. -/
theorem length_of_mem_blocks {bytes block : List UInt8} (h : block ∈ blocks bytes) :
    block.length = 64 := by
  obtain ⟨i, hi, rfl⟩ := List.mem_map.mp h
  have hi := List.mem_range.mp hi
  exact slice_length (by omega)

/-- The words are read from the bytes of a register. -/
theorem exists_bytes {v : List UInt8} (h : v.length = 16) :
    ∃ b0 b1 b2 b3 b4 b5 b6 b7 b8 b9 b10 b11 b12 b13 b14 b15,
      v = [b0, b1, b2, b3, b4, b5, b6, b7, b8, b9, b10, b11, b12, b13, b14, b15] := by
  match v, h with
  | [b0, b1, b2, b3, b4, b5, b6, b7, b8, b9, b10, b11, b12, b13, b14, b15], _ =>
    exact ⟨b0, b1, b2, b3, b4, b5, b6, b7, b8, b9, b10, b11, b12, b13, b14, b15, rfl⟩

end Blocks

namespace X86

theorem storeState_loadState (s : State) : storeState (loadState s) = s := rfl

theorem lanes_shuffleEpi8 {v : List UInt8} (h : v.length = 16) :
    lanes (shuffleEpi8 v (setEpi64x 0x0c0d0e0f08090a0b 0x0405060700010203)) = Quad.ofBytes v := by
  have hmask : setEpi64x 0x0c0d0e0f08090a0b 0x0405060700010203 =
      [3, 2, 1, 0, 7, 6, 5, 4, 11, 10, 9, 8, 15, 14, 13, 12] := by decide
  obtain ⟨b0, b1, b2, b3, b4, b5, b6, b7, b8, b9, b10, b11, b12, b13, b14, b15, rfl⟩ :=
    exists_bytes h
  rw [hmask]
  rfl

theorem loadBlock_eq {block : List UInt8} (h : block.length = 64) :
    loadBlock block = Window.ofBlock block := by
  unfold loadBlock Window.ofBlock
  simp only
  rw [lanes_shuffleEpi8 (slice_length (by omega)), lanes_shuffleEpi8 (slice_length (by omega)),
    lanes_shuffleEpi8 (slice_length (by omega)), lanes_shuffleEpi8 (slice_length (by omega))]

theorem blockAt_eq {input : List UInt8} {out : List (List UInt8)} {n : Nat} (hn : n ≤ out.length)
    (hpad : blocks (pad input) =
      (List.range (input.length / 64)).map (fun i => slice input (i * 64) 64) ++ out.take n)
    {i : Nat} (hi : i < input.length / 64 + n) :
    (blocks (pad input))[i]? = some (blockAt input out (input.length / 64) n i) := by
  have hfull : ((List.range (input.length / 64)).map
      fun i => slice input (i * 64) 64).length = input.length / 64 := by simp
  rw [hpad, blockAt]
  rcases Nat.lt_or_ge i (input.length / 64) with hlt | hge
  · rw [if_pos hlt, List.getElem?_append_left (by omega), List.getElem?_map,
      List.getElem?_range hlt]
    rfl
  · have htail : i - input.length / 64 < n := by omega
    rw [if_neg (Nat.not_lt.mpr hge), if_pos hi, List.getElem?_append_right (by omega), hfull,
      List.getElem?_take_of_lt htail, List.getD_eq_getElem?_getD,
      List.getElem?_eq_getElem (by omega)]
    rfl

/-- An active lane goes one block on, an idle one stays. -/
theorem settle_eq {s : State} {bs : List (List UInt8)} {block : List UInt8} {i : Nat}
    (hlengths : ∀ b ∈ bs, b.length = 64) (hblock : i < bs.length → bs[i]? = some block)
    (hs : s = (bs.take i).foldl compress initial) :
    settle (i < bs.length) (loadState s) (loadState (rounds s (loadBlock block))) =
      loadState ((bs.take (i + 1)).foldl compress initial) := by
  rcases Nat.lt_or_ge i bs.length with hlt | hge
  · have hget := hblock hlt
    have hlength := hlengths block (List.mem_of_getElem? hget)
    rw [List.take_add_one, hget, Option.toList_some, List.foldl_append, ← hs, List.foldl_cons,
      List.foldl_nil, settle, if_pos (decide_eq_true hlt), loadBlock_eq hlength]
    rfl
  · rw [settle, if_neg (by simpa using hge), hs, List.take_of_length_le hge,
      List.take_of_length_le (by omega)]

theorem finish_storeState (s : State) :
    finish [(storeState (loadState s)).a, (storeState (loadState s)).b,
      (storeState (loadState s)).c, (storeState (loadState s)).d, (storeState (loadState s)).e,
      (storeState (loadState s)).f, (storeState (loadState s)).g, (storeState (loadState s)).h] =
      s.bytes := rfl

variable {asm : Assembly}

/-- After every iteration each lane has the state of its blocks so far. -/
theorem lanes_after (hasm : PerformsRounds asm) {as bs : List (List UInt8)}
    (ha : ∀ b ∈ as, b.length = 64) (hb : ∀ b ∈ bs, b.length = 64) {blockA blockB : Nat → List UInt8}
    (hblockA : ∀ i < as.length, as[i]? = some (blockA i))
    (hblockB : ∀ i < bs.length, bs[i]? = some (blockB i)) (count : Nat) :
    (List.range count).foldl (fun (pa, pb) i =>
        let (newA, newB) := asm pa pb (loadBlock (blockA i)) (loadBlock (blockB i))
        (settle (i < as.length) pa newA, settle (i < bs.length) pb newB))
      (loadState initial, loadState initial) =
      (loadState ((as.take count).foldl compress initial),
        loadState ((bs.take count).foldl compress initial)) := by
  induction count with
  | zero => rfl
  | succ count ih =>
      rw [List.range_succ, List.foldl_append, ih, List.foldl_cons, List.foldl_nil]
      simp only [hasm _ _ _ _]
      rw [settle_eq ha (hblockA count) rfl, settle_eq hb (hblockB count) rfl]

theorem hash_eq (hasm : PerformsRounds asm) {a b : List UInt8} (ha : a.length < 2 ^ 61)
    (hb : b.length < 2 ^ 61) : hash asm a b = some (digest a, digest b) := by
  obtain ⟨atail, an, hatail, han, hapad⟩ := tail_blocks ha
  obtain ⟨btail, bn, hbtail, hbn, hbpad⟩ := tail_blocks hb
  have halength : (blocks (pad a)).length = a.length / 64 + an := by
    rw [hapad, List.length_append, List.length_map, List.length_range, List.length_take,
      Nat.min_eq_left han]
  have hblength : (blocks (pad b)).length = b.length / 64 + bn := by
    rw [hbpad, List.length_append, List.length_map, List.length_range, List.length_take,
      Nat.min_eq_left hbn]
  have hrun := @lanes_after _ hasm (blocks (pad a)) (blocks (pad b)) (fun _ => length_of_mem_blocks)
    (fun _ => length_of_mem_blocks) (blockAt a atail (a.length / 64) an)
    (blockAt b btail (b.length / 64) bn) (fun i hi => blockAt_eq han hapad (halength ▸ hi))
    (fun i hi => blockAt_eq hbn hbpad (hblength ▸ hi))
    (max (a.length / 64 + an) (b.length / 64 + bn))
  rw [halength, hblength] at hrun
  unfold hash
  rw [hatail, hbtail]
  simp only [Option.bind_eq_bind, Option.bind_some, hrun]
  rw [List.take_of_length_le (by omega), List.take_of_length_le (by omega), finish_storeState,
    finish_storeState]
  rfl

end X86

namespace Aarch64

/-- The state in the registers. -/
def pairOf (s : State) : Pair := ⟨⟨s.a, s.b, s.c, s.d⟩, ⟨s.e, s.f, s.g, s.h⟩⟩

theorem k_eq : k = constants := rfl

theorem start_eq : (⟨vld1qU32 initialWords 0, vld1qU32 initialWords 4⟩ : Pair) = pairOf initial :=
  rfl

theorem quad_eq (s : State) (w : Quad) (i : Nat) :
    quad (pairOf s) w i = pairOf (s.four (w.add (Quad.ofWords constants i))) := rfl

/-- The two instructions of the schedule give the next four words. -/
theorem schedule_eq (w : Window) :
    vsha256su1qU32 (vsha256su0qU32 w.q0 w.q1) w.q2 w.q3 = w.nextQuad := by
  unfold vsha256su1qU32 vsha256su0qU32 Window.nextQuad
  simp only [Quad.mk.injEq]
  refine ⟨?_, ?_, ?_, ?_⟩ <;> ac_rfl

theorem quads_eq (s : State) (w : Window) (i : Nat) :
    quads (pairOf s, w) i =
      (pairOf (s.sixteen (Quad.ofWords constants i) (Quad.ofWords constants (i + 4))
        (Quad.ofWords constants (i + 8)) (Quad.ofWords constants (i + 12)) w.later), w.later) := by
  obtain ⟨w0, w1, w2, w3⟩ := w
  unfold quads
  simp only
  rw [schedule_eq ⟨w0, w1, w2, w3⟩, schedule_eq ⟨w1, w2, w3, _⟩, schedule_eq ⟨w2, w3, _, _⟩,
    schedule_eq ⟨w3, _, _, _⟩]
  simp only [quad_eq]
  rfl

theorem load_eq {v : List UInt8} (h : v.length = 16) :
    vreinterpretqU32U8 (vrev32qU8 v) = Quad.ofBytes v := by
  obtain ⟨b0, b1, b2, b3, b4, b5, b6, b7, b8, b9, b10, b11, b12, b13, b14, b15, rfl⟩ :=
    exists_bytes h
  rfl

/-- The block macro is the compression of a block. -/
theorem block_eq (s : State) {bytes : List UInt8} (h : bytes.length = 64) :
    block (pairOf s) bytes = pairOf (compress s bytes) := by
  unfold block
  simp only
  rw [load_eq (slice_length (by omega)), load_eq (slice_length (by omega)),
    load_eq (slice_length (by omega)), load_eq (slice_length (by omega)), compress,
    rounds_sixteen]
  simp only [quad_eq, List.foldl_cons, List.foldl_nil, quads_eq]
  rfl

theorem foldl_block {bs : List (List UInt8)} (h : ∀ b ∈ bs, b.length = 64) (s : State) :
    bs.foldl block (pairOf s) = pairOf (bs.foldl compress s) := by
  induction bs generalizing s with
  | nil => rfl
  | cons b bs ih =>
      rw [List.foldl_cons, List.foldl_cons, block_eq s (h b List.mem_cons_self),
        ih fun c hc => h c (List.mem_cons_of_mem b hc)]

/-- Two independent folds over the same indices. -/
theorem foldl_both {α β : Type} (f : α → Nat → α) (g : β → Nat → β) (l : List Nat) (x : α) (y : β) :
    l.foldl (fun p i => (f p.1 i, g p.2 i)) (x, y) = (l.foldl f x, l.foldl g y) := by
  induction l generalizing x y with
  | nil => rfl
  | cons i l ih => exact ih (f x i) (g y i)

/-- The common blocks and the remaining ones are all full blocks of an input. -/
theorem full_blocks (input : List UInt8) {paired : Nat} (h : paired ≤ input.length / 64)
    (p : Pair) :
    (List.range' paired (input.length / 64 - paired)).foldl
        (fun p i => block p (slice input (i * 64) 64))
        ((List.range paired).foldl (fun p i => block p (slice input (i * 64) 64)) p) =
      ((List.range (input.length / 64)).map fun i => slice input (i * 64) 64).foldl block p := by
  have hrange : List.range (input.length / 64) =
      List.range paired ++ List.range' paired (input.length / 64 - paired) := by
    have happend := List.range'_append_1 (s := 0) (m := paired) (n := input.length / 64 - paired)
    rw [Nat.zero_add, Nat.add_sub_cancel' h] at happend
    rw [List.range_eq_range', List.range_eq_range', happend]
  rw [List.foldl_map, hrange, List.foldl_append]

theorem lane_eq {input : List UInt8} {out : List (List UInt8)} {n : Nat}
    (hpad : blocks (pad input) =
      (List.range (input.length / 64)).map (fun i => slice input (i * 64) 64) ++ out.take n) :
    finishPair ((out.take n).foldl block
      (((List.range (input.length / 64)).map fun i => slice input (i * 64) 64).foldl block
        (pairOf initial))) = digest input := by
  have hrun := @foldl_block (blocks (pad input)) (fun _ => length_of_mem_blocks) initial
  rw [← List.foldl_append, ← hpad, hrun]
  rfl

theorem hash_eq {a b : List UInt8} (ha : a.length < 2 ^ 61) (hb : b.length < 2 ^ 61) :
    hash a b = some (digest a, digest b) := by
  obtain ⟨atail, an, hatail, -, hapad⟩ := tail_blocks ha
  obtain ⟨btail, bn, hbtail, -, hbpad⟩ := tail_blocks hb
  unfold hash
  rw [hatail, hbtail, start_eq]
  simp only [Option.bind_eq_bind, Option.bind_some]
  rw [foldl_both (fun p i => block p (slice a (i * 64) 64))
    (fun p i => block p (slice b (i * 64) 64)),
    full_blocks a (Nat.min_le_left _ _), full_blocks b (Nat.min_le_right _ _), lane_eq hapad,
    lane_eq hbpad]

end Aarch64

section Statement

/-- Both drivers give the digests of both inputs, of any lengths: the one when a call of the
assembly performs the rounds on both lanes, the other by its macros. -/
theorem drivers_digest (asm : X86.Assembly) (hasm : X86.PerformsRounds asm) (a b : List UInt8)
    (ha : a.length < 2 ^ 61) (hb : b.length < 2 ^ 61) :
    X86.hash asm a b = some (digest a, digest b) ∧
      Aarch64.hash a b = some (digest a, digest b) :=
  ⟨X86.hash_eq hasm ha hb, Aarch64.hash_eq ha hb⟩

/-- An assembly that performs the rounds on what is stored in the registers, and inputs whose
padding takes one block and two. -/
theorem drivers_digest_lengths :
    let asm : X86.Assembly := fun pa pb v w =>
      (X86.loadState (rounds (X86.storeState pa) v), X86.loadState (rounds (X86.storeState pb) w))
    X86.hash asm [0x61, 0x62, 0x63] (List.replicate 120 7) =
        some (digest [0x61, 0x62, 0x63], digest (List.replicate 120 7)) ∧
      Aarch64.hash [0x61, 0x62, 0x63] (List.replicate 120 7) =
        some (digest [0x61, 0x62, 0x63], digest (List.replicate 120 7)) := by
  intro asm
  exact drivers_digest asm (fun _ _ _ _ => rfl) _ _ (by decide)
    (by rw [List.length_replicate]; decide)

end Statement

end DirtybirdMiner.Astro.Sha256x2
