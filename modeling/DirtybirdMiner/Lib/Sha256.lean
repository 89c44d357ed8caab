import DirtybirdMiner.Lib.Bytes
import Mathlib.Tactic.Ring

/-!
SHA-256: the padding of a message, the 64 rounds on a block, and the digest.  The message
schedule is a window of the latest sixteen words, in four groups of four; four rounds move it
by one group.
-/

namespace DirtybirdMiner.Lib.Sha256

open DirtybirdMiner.Lib.Bytes

section Rounds

/-- The eight working variables. -/
structure State where
  a : UInt32
  b : UInt32
  c : UInt32
  d : UInt32
  e : UInt32
  f : UInt32
  g : UInt32
  h : UInt32
deriving DecidableEq

structure Quad where
  w0 : UInt32
  w1 : UInt32
  w2 : UInt32
  w3 : UInt32
deriving DecidableEq

structure Window where
  q0 : Quad
  q1 : Quad
  q2 : Quad
  q3 : Quad
deriving DecidableEq

def rotr (x n : UInt32) : UInt32 := x >>> n ||| x <<< (32 - n)

def smallSigma0 (x : UInt32) : UInt32 := rotr x 7 ^^^ rotr x 18 ^^^ x >>> 3

def smallSigma1 (x : UInt32) : UInt32 := rotr x 17 ^^^ rotr x 19 ^^^ x >>> 10

def bigSigma0 (x : UInt32) : UInt32 := rotr x 2 ^^^ rotr x 13 ^^^ rotr x 22

def bigSigma1 (x : UInt32) : UInt32 := rotr x 6 ^^^ rotr x 11 ^^^ rotr x 25

def ch (x y z : UInt32) : UInt32 := (x &&& y) ^^^ (~~~x &&& z)

def maj (x y z : UInt32) : UInt32 := (x &&& y) ^^^ (x &&& z) ^^^ (y &&& z)

/-- One round, with the sum of the word and the constant. -/
def State.round (s : State) (wk : UInt32) : State :=
  let t1 := s.h + bigSigma1 s.e + ch s.e s.f s.g + wk
  let t2 := bigSigma0 s.a + maj s.a s.b s.c
  ⟨t1 + t2, s.a, s.b, s.c, s.d + t1, s.e, s.f, s.g⟩

def State.add (s t : State) : State :=
  ⟨s.a + t.a, s.b + t.b, s.c + t.c, s.d + t.d, s.e + t.e, s.f + t.f, s.g + t.g, s.h + t.h⟩

/-- The window one word later. -/
def Window.next (w : Window) : Window :=
  { q0 := ⟨w.q0.w1, w.q0.w2, w.q0.w3, w.q1.w0⟩
    q1 := ⟨w.q1.w1, w.q1.w2, w.q1.w3, w.q2.w0⟩
    q2 := ⟨w.q2.w1, w.q2.w2, w.q2.w3, w.q3.w0⟩
    q3 := ⟨w.q3.w1, w.q3.w2, w.q3.w3,
      smallSigma1 w.q3.w2 + w.q2.w1 + smallSigma0 w.q0.w1 + w.q0.w0⟩ }

/-- A round for each of the constants. -/
def roundsFrom : List UInt32 → State → Window → State
  | [], s, _ => s
  | k :: ks, s, w => roundsFrom ks (s.round (w.q0.w0 + k)) w.next

/-- The round constants. -/
def constants : List UInt32 :=
  [0x428a2f98, 0x71374491, 0xb5c0fbcf, 0xe9b5dba5, 0x3956c25b, 0x59f111f1, 0x923f82a4,
    0xab1c5ed5, 0xd807aa98, 0x12835b01, 0x243185be, 0x550c7dc3, 0x72be5d74, 0x80deb1fe,
    0x9bdc06a7, 0xc19bf174, 0xe49b69c1, 0xefbe4786, 0x0fc19dc6, 0x240ca1cc, 0x2de92c6f,
    0x4a7484aa, 0x5cb0a9dc, 0x76f988da, 0x983e5152, 0xa831c66d, 0xb00327c8, 0xbf597fc7,
    0xc6e00bf3, 0xd5a79147, 0x06ca6351, 0x14292967, 0x27b70a85, 0x2e1b2138, 0x4d2c6dfc,
    0x53380d13, 0x650a7354, 0x766a0abb, 0x81c2c92e, 0x92722c85, 0xa2bfe8a1, 0xa81a664b,
    0xc24b8b70, 0xc76c51a3, 0xd192e819, 0xd6990624, 0xf40e3585, 0x106aa070, 0x19a4c116,
    0x1e376c08, 0x2748774c, 0x34b0bcb5, 0x391c0cb3, 0x4ed8aa4a, 0x5b9cca4f, 0x682e6ff3,
    0x748f82ee, 0x78a5636f, 0x84c87814, 0x8cc70208, 0x90befffa, 0xa4506ceb, 0xbef9a3f7,
    0xc67178f2]

def rounds (s : State) (w : Window) : State := roundsFrom constants s w

end Rounds

section Groups

def Quad.add (v w : Quad) : Quad := ⟨v.w0 + w.w0, v.w1 + w.w1, v.w2 + w.w2, v.w3 + w.w3⟩

/-- Four rounds. -/
def State.four (s : State) (wk : Quad) : State :=
  (((s.round wk.w0).round wk.w1).round wk.w2).round wk.w3

/-- The four words after the window. -/
def Window.nextQuad (w : Window) : Quad :=
  let r0 := smallSigma1 w.q3.w2 + w.q2.w1 + smallSigma0 w.q0.w1 + w.q0.w0
  let r1 := smallSigma1 w.q3.w3 + w.q2.w2 + smallSigma0 w.q0.w2 + w.q0.w1
  let r2 := smallSigma1 r0 + w.q2.w3 + smallSigma0 w.q0.w3 + w.q0.w2
  let r3 := smallSigma1 r1 + w.q3.w0 + smallSigma0 w.q1.w0 + w.q0.w3
  ⟨r0, r1, r2, r3⟩

/-- Rounds by groups of four. -/
theorem roundsFrom_four (k0 k1 k2 k3 : UInt32) (ks : List UInt32) (s : State) (w : Window) :
    roundsFrom (k0 :: k1 :: k2 :: k3 :: ks) s w =
      roundsFrom ks (s.four (w.q0.add ⟨k0, k1, k2, k3⟩)) ⟨w.q1, w.q2, w.q3, w.nextQuad⟩ := rfl

/-- Sixteen rounds, on the words of the window. -/
def State.sixteen (s : State) (k0 k1 k2 k3 : Quad) (w : Window) : State :=
  (((s.four (w.q0.add k0)).four (w.q1.add k1)).four (w.q2.add k2)).four (w.q3.add k3)

/-- The window sixteen words later. -/
def Window.later (w : Window) : Window :=
  let n0 := w.nextQuad
  let n1 := Window.nextQuad ⟨w.q1, w.q2, w.q3, n0⟩
  let n2 := Window.nextQuad ⟨w.q2, w.q3, n0, n1⟩
  let n3 := Window.nextQuad ⟨w.q3, n0, n1, n2⟩
  ⟨n0, n1, n2, n3⟩

/-- The constants of four rounds. -/
def Quad.ofWords (words : List UInt32) (i : Nat) : Quad :=
  ⟨words.getD i 0, words.getD (i + 1) 0, words.getD (i + 2) 0, words.getD (i + 3) 0⟩

/-- The rounds by groups of sixteen. -/
theorem rounds_sixteen (s : State) (w : Window) :
    let group (i : Nat) (s : State) (w : Window) := s.sixteen (Quad.ofWords constants i)
      (Quad.ofWords constants (i + 4)) (Quad.ofWords constants (i + 8))
      (Quad.ofWords constants (i + 12)) w
    rounds s w = group 48 (group 32 (group 16 (group 0 s w) w.later) w.later.later)
      w.later.later.later := by
  intro group
  rw [rounds, constants]
  simp only [roundsFrom_four]
  rfl

end Groups

section Digest

/-- The words of sixteen bytes. -/
def Quad.ofBytes (bytes : List UInt8) : Quad :=
  let word (i : Nat) := UInt32.ofNat (beValue (slice bytes (4 * i) 4))
  ⟨word 0, word 1, word 2, word 3⟩

/-- The words of a block. -/
def Window.ofBlock (block : List UInt8) : Window :=
  ⟨Quad.ofBytes (slice block 0 16), Quad.ofBytes (slice block 16 16),
    Quad.ofBytes (slice block 32 16), Quad.ofBytes (slice block 48 16)⟩

def compress (s : State) (block : List UInt8) : State :=
  (rounds s (Window.ofBlock block)).add s

def initial : State :=
  ⟨0x6a09e667, 0xbb67ae85, 0x3c6ef372, 0xa54ff53a, 0x510e527f, 0x9b05688c, 0x1f83d9ab,
    0x5be0cd19⟩

/-- The message with a one bit, zeros and its length in bits, up to a full block. -/
def pad (message : List UInt8) : List UInt8 :=
  message ++ ((0x80 :: List.replicate ((119 - message.length % 64) % 64) 0) ++
    beBytes 8 (8 * message.length))

/-- The full blocks of a string of bytes. -/
def blocks (bytes : List UInt8) : List (List UInt8) :=
  (List.range (bytes.length / 64)).map fun i => slice bytes (i * 64) 64

def State.bytes (s : State) : List UInt8 :=
  [s.a, s.b, s.c, s.d, s.e, s.f, s.g, s.h].flatMap fun w => beBytes 4 w.toNat

def digest (message : List UInt8) : List UInt8 :=
  ((blocks (pad message)).foldl compress initial).bytes

/-- The digest of the three letters `abc`. -/
example : digest [0x61, 0x62, 0x63] =
    [0xba, 0x78, 0x16, 0xbf, 0x8f, 0x01, 0xcf, 0xea, 0x41, 0x41, 0x40, 0xde, 0x5d, 0xae, 0x22,
      0x23, 0xb0, 0x03, 0x61, 0xa3, 0x96, 0x17, 0x7a, 0x9c, 0xb4, 0x10, 0xff, 0x61, 0xf2, 0x00,
      0x15, 0xad] := by
  decide +kernel

end Digest

section Blocks

theorem blocks_append {s t : List UInt8} (h : s.length % 64 = 0) :
    blocks (s ++ t) = blocks s ++ blocks t := by
  have hcount : (s ++ t).length / 64 = s.length / 64 + t.length / 64 := by
    rw [List.length_append]
    omega
  rw [blocks, blocks, blocks, hcount, List.range_add, List.map_append, List.map_map]
  congr 1
  · apply List.map_congr_left
    intro i hi
    have hi := List.mem_range.mp hi
    rw [slice, slice, List.drop_append_of_le_length (by omega),
      List.take_append_of_le_length (by rw [List.length_drop]; omega)]
  · apply List.map_congr_left
    intro i _
    have hdrop : (s.length / 64 + i) * 64 = s.length + i * 64 := by omega
    rw [Function.comp_apply, slice, slice, hdrop, List.drop_append,
      List.drop_of_length_le (by omega), List.nil_append, Nat.add_sub_cancel_left]

theorem blocks_single {block : List UInt8} (h : block.length = 64) : blocks block = [block] := by
  have hslice : slice block (0 * 64) 64 = block := by
    rw [slice, Nat.zero_mul, List.drop_zero, List.take_of_length_le (by omega)]
  rw [blocks, h]
  change [slice block (0 * 64) 64] = [block]
  rw [hslice]

/-- The blocks of a padded message: those of the message, then one or two with the padding. -/
theorem blocks_pad {message rest : List UInt8} {full : Nat}
    (hlength : message.length = full * 64 + rest.length) (hrest : message.drop (full * 64) = rest)
    (hshort : rest.length < 64) :
    blocks (pad message) = blocks (message.take (full * 64)) ++
      if rest.length < 56 then
        [rest ++ 0x80 :: (List.replicate (55 - rest.length) 0 ++ beBytes 8 (8 * message.length))]
      else
        [rest ++ 0x80 :: List.replicate (63 - rest.length) 0,
          List.replicate 56 0 ++ beBytes 8 (8 * message.length)] := by
  have htake : (message.take (full * 64)).length = full * 64 := by
    rw [List.length_take]
    omega
  have hmod : message.length % 64 = rest.length := by omega
  have hsplit : pad message = message.take (full * 64) ++ (rest ++
      ((0x80 :: List.replicate ((119 - rest.length) % 64) 0) ++
        beBytes 8 (8 * message.length))) := by
    rw [pad, hmod, ← List.append_assoc _ rest, ← hrest, List.take_append_drop]
  rw [hsplit, blocks_append (by omega)]
  congr 1
  split
  · rename_i hone
    have hzeros : (119 - rest.length) % 64 = 55 - rest.length := by omega
    rw [hzeros, List.cons_append]
    apply blocks_single
    simp only [List.length_append, List.length_cons, List.length_replicate, beBytes_length]
    omega
  · rename_i htwo
    have hzeros : (119 - rest.length) % 64 = (63 - rest.length) + 56 := by omega
    have hassoc : rest ++ ((0x80 :: List.replicate ((63 - rest.length) + 56) 0) ++
        beBytes 8 (8 * message.length)) = (rest ++ 0x80 :: List.replicate (63 - rest.length) 0) ++
          (List.replicate 56 0 ++ beBytes 8 (8 * message.length)) := by
      rw [← List.replicate_append_replicate]
      simp only [List.append_assoc, List.cons_append]
    have hfirst : (rest ++ 0x80 :: List.replicate (63 - rest.length) (0 : UInt8)).length = 64 := by
      rw [List.length_append, List.length_cons, List.length_replicate]
      omega
    rw [hzeros, hassoc, blocks_append (by rw [hfirst]), blocks_single hfirst,
      blocks_single (by rw [List.length_append, List.length_replicate, beBytes_length])]
    rfl

end Blocks

end DirtybirdMiner.Lib.Sha256
