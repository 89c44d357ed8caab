import DirtybirdMiner.Astro.Ops
import DirtybirdMiner.Lib.Lanes
import Mathlib.Data.Fintype.Basic
import Mathlib.Tactic.FinCases

/-!
The vector op kernel of the AstroBWTv3 loop, from `astrobwt/src/ops_avx2.rs`: every op has
a code of four primitives, which transform a window of 32 bytes at once.  It does what
the scalar kernel does.
-/

namespace DirtybirdMiner.Astro.OpsAvx2

open DirtybirdMiner.Lib.Lanes
open DirtybirdMiner.Astro.Model
open DirtybirdMiner.Astro.Ops

section Kernel

/-- `OPS`. -/
def codes : List Nat := [
  0x0000, 0x7654, 0x0480, 0x5a93, 0xd3cb, 0xc4a0, 0xdb94, 0xb037, 0x411b, 0xfcea, 0x292b, 0x3615,
  0xbf2f, 0x1ca5, 0x424c, 0xd64f, 0xb52e, 0xb12a, 0x159e, 0x741d, 0xf8a6, 0x67a5, 0x5284, 0x6059,
  0x1ec7, 0xd390, 0x8702, 0x1e61, 0x1774, 0x7ca2, 0x41e6, 0x24fb, 0xf98f, 0x28e3, 0xd44d, 0xa5b7,
  0x5f50, 0x2cc3, 0x309c, 0x6caf, 0xa0a3, 0xe9d1, 0x3f95, 0xd676, 0x3900, 0x0611, 0xe170, 0x4161,
  0x1bb3, 0xe870, 0x5798, 0x1eea, 0x0bc3, 0xee07, 0xbba8, 0x5ee8, 0x5b2f, 0x8913, 0x76f8, 0xb325,
  0x92ba, 0x1941, 0x7fb6, 0x7d01, 0x2e8a, 0x2f91, 0x5e8f, 0x1f05, 0xaeb6, 0xc827, 0xec2a, 0x42b1,
  0x4a08, 0xd180, 0x6892, 0xe602, 0xc1f3, 0x0479, 0xd283, 0x27fe, 0x6743, 0x034e, 0xcbba, 0x8984,
  0x745d, 0x43ac, 0xbe3e, 0x7e97, 0xb25f, 0xfb27, 0xc518, 0x8e60, 0x60b0, 0x762f, 0x4635, 0x11b5,
  0x50ff, 0xc045, 0xec4e, 0xc8de, 0x0843, 0xbc0c, 0x97d9, 0x3a85, 0x7108, 0xf394, 0x25e8, 0x51fc,
  0xf6ba, 0xfa32, 0xcff7, 0xc282, 0xd1b9, 0xb051, 0xb385, 0x9613, 0x40a6, 0x6494, 0x147c, 0xabf8,
  0x8a2f, 0x207c, 0xf13e, 0x99b6, 0xbaff, 0xc7f8, 0x8159, 0xa624, 0x1ff3, 0xc00b, 0xe53c, 0x205d,
  0xf186, 0x4f1a, 0x65eb, 0x87fc, 0x1adc, 0x38c1, 0xd7aa, 0x9f91, 0x1af5, 0x70d5, 0xf816, 0x4c96,
  0x3b43, 0xefe8, 0x0646, 0x2e4b, 0xd416, 0x7d8a, 0x6444, 0x4247, 0xf4bc, 0xbb95, 0x0ab1, 0xa0ad,
  0x59cc, 0x534c, 0x5790, 0xa3ad, 0x958c, 0x31aa, 0xdf82, 0x5ed4, 0xbd02, 0x74ae, 0xbf79, 0xc2bb,
  0x5363, 0x6e45, 0x2d8d, 0x80d9, 0x54de, 0x724b, 0x003b, 0x12d9, 0x1a2a, 0x6ff0, 0x5b76, 0x8c7f,
  0xdaec, 0x1f4b, 0xe15a, 0x2dd7, 0xa124, 0xc1eb, 0xcdef, 0x97ba, 0xee0e, 0xdae1, 0xf6c1, 0xc397,
  0x2747, 0x5346, 0x6436, 0xeaf0, 0x5489, 0x223e, 0x58cc, 0xa27b, 0x880c, 0xbef9, 0x13ba, 0x356a,
  0xa3f1, 0x74e0, 0x088e, 0x0091, 0x9c77, 0xd081, 0xb13f, 0x3d7e, 0xaaf3, 0xd947, 0xbcda, 0x246a,
  0x6db3, 0xe571, 0xd2b8, 0x869e, 0x4845, 0x8ba1, 0x2a4c, 0xd3a9, 0x495f, 0x98cb, 0xa2d8, 0x6d4b,
  0x07c7, 0x0f39, 0x3362, 0x8ac9, 0x1e22, 0x0905, 0xac26, 0xb92f, 0xd67a, 0x9f41, 0xd977, 0x6251,
  0x467b, 0x5a0e, 0xad77, 0x50f1, 0x18fb, 0xcf1d, 0x7c57, 0xb1f1, 0x10db, 0x3ee8, 0xe036, 0xf807,
  0x4fe8, 0x0000, 0x9f90, 0x9f90]

def shl (n : Nat) (x : Register) : Register :=
  andSi256 (slliEpi16 n x) (set1Epi8 (0xff <<< UInt8.ofNat n))

def shr (n : Nat) (x : Register) : Register :=
  andSi256 (srliEpi16 n x) (set1Epi8 (0xff >>> UInt8.ofNat n))

/-- The amounts are between 1 and 5. -/
def rot (n : Nat) (x : Register) : Register := orSi256 (shl n x) (shr (8 - n) x)

def select (mask no yes : Register) : Register := blendvEpi8 no yes mask

def variableShift (x : Register) (right : Bool) : Register :=
  let count := andSi256 x (set1Epi8 3)
  [1, 2, 3].foldl (fun out n =>
    let shifted := if right then shr n x else shl n x
    select (cmpeqEpi8 count (set1Epi8 (UInt8.ofNat n))) out shifted) x

def rotateSelf (x : Register) : Register :=
  let out := x
  let out := select (cmpeqEpi8 (andSi256 x (set1Epi8 1)) (set1Epi8 1)) out (rot 1 out)
  let out := select (cmpeqEpi8 (andSi256 x (set1Epi8 2)) (set1Epi8 2)) out (rot 2 out)
  select (cmpeqEpi8 (andSi256 x (set1Epi8 4)) (set1Epi8 4)) out (rot 4 out)

def popcount (x : Register) : Register :=
  let a := subEpi8 x (andSi256 (shr 1 x) (set1Epi8 0x55))
  let b := addEpi8 (andSi256 a (set1Epi8 0x33)) (andSi256 (shr 2 a) (set1Epi8 0x33))
  andSi256 (addEpi8 b (shr 4 b)) (set1Epi8 0x0f)

def reverseRegister (x : Register) : Register :=
  let a := orSi256 (andSi256 (shr 1 x) (set1Epi8 0x55)) (shl 1 (andSi256 x (set1Epi8 0x55)))
  let b := orSi256 (andSi256 (shr 2 a) (set1Epi8 0x33)) (shl 2 (andSi256 a (set1Epi8 0x33)))
  rot 4 b

def square (x : Register) : Register :=
  let lo := andSi256 x (set1Epi16 0xff)
  let hi := srliEpi16 8 x
  orSi256 (andSi256 (mulloEpi16 lo lo) (set1Epi16 0xff))
    (slliEpi16 8 (andSi256 (mulloEpi16 hi hi) (set1Epi16 0xff)))

def primitive (op : Fin 16) (x p2 : Register) : Register :=
  match op.val with
  | 0 => xorSi256 x (popcount x)
  | 1 => rot 5 x
  | 2 => square x
  | 3 => rotateSelf x
  | 4 => variableShift x false
  | 5 => rot 1 x
  | 6 => andSi256 x p2
  | 7 => addEpi8 x x
  | 8 => reverseRegister x
  | 9 => rot 3 x
  | 10 => xorSi256 x p2
  | 11 => xorSi256 x (set1Epi8 0xff)
  | 12 => variableShift x true
  | 13 => subEpi8 x (xorSi256 x (set1Epi8 97))
  | 14 => xorSi256 x (rot 4 x)
  | _ => xorSi256 x (rot 2 x)

/-- The four primitives of a code, the lowest bits first. -/
def primitives (code : Nat) : List (Fin 16) :=
  [Fin.ofNat 16 code, Fin.ofNat 16 (code >>> 4), Fin.ofNat 16 (code >>> 8),
    Fin.ofNat 16 (code >>> 12)]

/-- `_mm256_loadu_si256` at an offset of the state. -/
def load (s : Block256) (start : Fin 225) : Register := fun k =>
  s.get ⟨start.val + k.val, by omega⟩

/-- `_mm256_storeu_si256` at an offset of the state. -/
def store (s : Block256) (start : Fin 225) (v : Register) : Block256 :=
  Vector.ofFn fun i =>
    if h : start.val ≤ i.val ∧ i.val < start.val + 32 then v ⟨i.val - start.val, by omega⟩
    else s.get i

/-- The window, which never reaches behind the state. -/
def windowStart (p1 : Nat) : Fin 225 := ⟨min p1 224, by omega⟩

def apply (op pos1 pos2 : UInt8) (st : OpState) : OpState :=
  let st := if op ≥ 254 then { st with rc4 := Rc4.new st.step3 } else st
  if pos1 = pos2 then st
  else
    let start := windowStart pos1.toNat
    let lanes : Register := fun k => UInt8.ofNat k.val
    let low := set1Epi8 (UInt8.ofNat (pos1.toNat - start.val) - 1)
    let high := set1Epi8 (UInt8.ofNat (pos2.toNat - start.val))
    let mask := andSi256 (cmpgtEpi8 lanes low) (cmpgtEpi8 high lanes)
    let old := load st.step3 start
    let p2 := set1Epi8 (byteAt st.step3 pos2)
    let x := (primitives (codes.getD op.toNat 0)).foldl (fun x c => primitive c x p2) old
    { st with step3 := store st.step3 start (blendvEpi8 old x mask) }

/-- The scalar kernel stands in for ops 0 and 253 and on processors without the
instructions. -/
def applyOpAvx2 (xxh64 : List UInt8 → UInt64) (detected : Bool) (op pos1 pos2 : UInt8)
    (st : OpState) : OpState :=
  if op = 0 ∨ op = 253 ∨ detected = false then applyOp xxh64 op pos1 pos2 st
  else apply op pos1 pos2 st

end Kernel

section Bytewise

/-- Facts about single bytes are checked one by one. -/
theorem forall_byte {P : UInt8 → Prop} (h : ∀ n < 256, P (UInt8.ofNat n)) (x : UInt8) : P x := by
  have hx := h x.toNat x.toNat_lt
  rwa [UInt8.ofNat_toNat] at hx

theorem shl_eq {n : Nat} (hn : n < 8) (x : Register) : shl n x = fun k => x k <<< UInt8.ofNat n :=
  slliEpi16_masked hn x

theorem shr_eq {n : Nat} (hn : n < 8) (x : Register) : shr n x = fun k => x k >>> UInt8.ofNat n :=
  srliEpi16_masked hn x

theorem rot_eq {n : Nat} (hpos : 0 < n) (hn : n < 8) (x : Register) :
    rot n x = fun k => rotateLeft (x k) n := by
  have hmod : n % 8 = n := Nat.mod_eq_of_lt hn
  have hrest : (8 - n) % 8 = 8 - n := Nat.mod_eq_of_lt (by omega)
  funext k
  rw [rot, shl_eq hn, shr_eq (by omega), orSi256, rotateLeft, hmod, hrest]

theorem select_cmpeq (a b no yes : Register) :
    select (cmpeqEpi8 a b) no yes = fun k => if a k = b k then yes k else no k := by
  funext k
  rw [select, blendvEpi8, cmpeqEpi8]
  split
  · rfl
  · rfl

/-- `popcount` on one byte. -/
def popcountByte (x : UInt8) : UInt8 :=
  let m55 : UInt8 := 0x55
  let m33 : UInt8 := 0x33
  let a : UInt8 := x - (x >>> 1 &&& m55)
  let b : UInt8 := (a &&& m33) + (a >>> 2 &&& m33)
  b + b >>> 4 &&& 0x0f

/-- `reverseRegister` on one byte. -/
def reverseByte (x : UInt8) : UInt8 :=
  let m55 : UInt8 := 0x55
  let m33 : UInt8 := 0x33
  let a : UInt8 := x >>> 1 &&& m55 ||| (x &&& m55) <<< 1
  let b : UInt8 := a >>> 2 &&& m33 ||| (a &&& m33) <<< 2
  rotateLeft b 4

/-- One bit of the amount. -/
def rotateBit (n : Nat) (x out : UInt8) : UInt8 :=
  if x &&& UInt8.ofNat n = UInt8.ofNat n then rotateLeft out n else out

/-- `rotateSelf` on one byte. -/
def rotateByte (x : UInt8) : UInt8 := rotateBit 4 x (rotateBit 2 x (rotateBit 1 x x))

/-- One value of the amount. -/
def shiftBy (shift : UInt8 → UInt8 → UInt8) (n : UInt8) (x out : UInt8) : UInt8 :=
  if x &&& 3 = n then shift x n else out

/-- `variableShift` on one byte. -/
def shiftByte (shift : UInt8 → UInt8 → UInt8) (x : UInt8) : UInt8 :=
  shiftBy shift 3 x (shiftBy shift 2 x (shiftBy shift 1 x x))

/-- The five programs on every byte. -/
theorem bytes_table : ∀ n < 256,
    popcountByte (UInt8.ofNat n) = countOnes (UInt8.ofNat n) ∧
    reverseByte (UInt8.ofNat n) = reverseBits (UInt8.ofNat n) ∧
    rotateByte (UInt8.ofNat n) = rotateLeft (UInt8.ofNat n) (UInt8.ofNat n).toNat ∧
    shiftByte (· <<< ·) (UInt8.ofNat n) = UInt8.ofNat n <<< (UInt8.ofNat n &&& 3) ∧
    shiftByte (· >>> ·) (UInt8.ofNat n) = UInt8.ofNat n >>> (UInt8.ofNat n &&& 3) := by
  decide +kernel

theorem byte_programs (x : UInt8) : popcountByte x = countOnes x ∧ reverseByte x = reverseBits x ∧
    rotateByte x = rotateLeft x x.toNat ∧ shiftByte (· <<< ·) x = x <<< (x &&& 3) ∧
    shiftByte (· >>> ·) x = x >>> (x &&& 3) := by
  revert x
  apply forall_byte
  exact bytes_table

theorem popcount_eq (x : Register) : popcount x = fun k => countOnes (x k) := by
  funext k
  rw [← (byte_programs (x k)).1]
  simp only [popcount, shr_eq (show 1 < 8 by decide), shr_eq (show 2 < 8 by decide),
    shr_eq (show 4 < 8 by decide), andSi256, addEpi8, subEpi8, set1Epi8]
  rfl

theorem reverseRegister_eq (x : Register) : reverseRegister x = fun k => reverseBits (x k) := by
  funext k
  rw [← (byte_programs (x k)).2.1]
  simp only [reverseRegister, shr_eq (show 1 < 8 by decide), shr_eq (show 2 < 8 by decide),
    shl_eq (show 1 < 8 by decide), shl_eq (show 2 < 8 by decide),
    rot_eq (show 0 < 4 by decide) (show 4 < 8 by decide), andSi256, orSi256, set1Epi8]
  rfl

theorem rotateSelf_eq (x : Register) : rotateSelf x = fun k => rotateLeft (x k) (x k).toNat := by
  funext k
  rw [← (byte_programs (x k)).2.2.1]
  simp only [rotateSelf, select_cmpeq, rot_eq (show 0 < 1 by decide) (show 1 < 8 by decide),
    rot_eq (show 0 < 2 by decide) (show 2 < 8 by decide),
    rot_eq (show 0 < 4 by decide) (show 4 < 8 by decide)]
  rfl

theorem variableShift_left (x : Register) :
    variableShift x false = fun k => x k <<< (x k &&& 3) := by
  funext k
  rw [← (byte_programs (x k)).2.2.2.1]
  simp only [variableShift, List.foldl_cons, List.foldl_nil, Bool.false_eq_true, if_false,
    select_cmpeq, shl_eq (show 1 < 8 by decide), shl_eq (show 2 < 8 by decide),
    shl_eq (show 3 < 8 by decide)]
  rfl

theorem variableShift_right (x : Register) :
    variableShift x true = fun k => x k >>> (x k &&& 3) := by
  funext k
  rw [← (byte_programs (x k)).2.2.2.2]
  simp only [variableShift, List.foldl_cons, List.foldl_nil, if_true, select_cmpeq,
    shr_eq (show 1 < 8 by decide), shr_eq (show 2 < 8 by decide), shr_eq (show 3 < 8 by decide)]
  rfl

/-- The two bytes of a lane are squared apart. -/
theorem square_eq (x : Register) : square x = fun k => x k * x k := by
  obtain ⟨low, high, rfl⟩ := exists_interleave x
  have hsquare : square (interleave low high) =
      interleave (fun j => low j * low j) (fun j => high j * high j) := by
    have h8 : UInt16.ofNat 8 = 8 := rfl
    simp only [square, set1Epi16, srliEpi16, slliEpi16, mulloEpi16, ofLanes_eq, lane_interleave,
      andSi256_interleave, orSi256_interleave, if_pos (show 8 < 16 by decide), h8,
      UInt16.toUInt8_mul, low_pack, high_pack, low_pack_shl, high_pack_shl]
    have hmask : ∀ y : UInt8, y &&& (0xff : UInt16).toUInt8 = y := by
      intro y
      exact UInt8.and_neg_one
    have hzero : ∀ y : UInt8, y &&& ((0xff : UInt16) >>> 8).toUInt8 = 0 := by
      intro y
      exact UInt8.and_zero
    simp only [hmask, hzero, UInt8.or_zero, UInt8.zero_or]
  rw [hsquare]
  funext k
  rw [interleave, interleave]
  split <;> rfl

end Bytewise

section Agreement

/-- The statement that a primitive performs on every byte. -/
def statement (c : Fin 16) : Stmt :=
  match c.val with
  | 0 => .xorCountOnes
  | 1 => .rotateLeft 5
  | 2 => .mulSelf
  | 3 => .rotateLeftSelf
  | 4 => .shlSelf
  | 5 => .rotateLeft 1
  | 6 => .andP2
  | 7 => .addSelf
  | 8 => .reverseBits
  | 9 => .rotateLeft 3
  | 10 => .xorP2
  | 11 => .not
  | 12 => .shrSelf
  | 13 => .subXor97
  | 14 => .xorRotateLeft 4
  | _ => .xorRotateLeft 2

theorem primitive_eq (c : Fin 16) (x : Register) (p2 : UInt8) :
    primitive c x (set1Epi8 p2) = fun k => (statement c).eval (x k) p2 := by
  fin_cases c
  · exact congrArg (xorSi256 x) (popcount_eq x)
  · exact rot_eq (by decide) (by decide) x
  · exact square_eq x
  · exact rotateSelf_eq x
  · exact variableShift_left x
  · exact rot_eq (by decide) (by decide) x
  · rfl
  · rfl
  · exact reverseRegister_eq x
  · exact rot_eq (by decide) (by decide) x
  · rfl
  · funext k
    change x k ^^^ 0xff = ~~~x k
    exact UInt8.xor_neg_one
  · exact variableShift_right x
  · rfl
  · exact congrArg (xorSi256 x) (rot_eq (n := 4) (by decide) (by decide) x)
  · exact congrArg (xorSi256 x) (rot_eq (n := 2) (by decide) (by decide) x)

/-- Except for two ops, which have the code zero, the codes are those of the bodies. -/
theorem codes_table : (codes.map fun code => (primitives code).map statement) =
    (bodies.set 0 ((primitives 0).map statement)).set 253 ((primitives 0).map statement) := by
  decide +kernel

theorem codes_bodies {n : Nat} (hn : n < 256) (h0 : n ≠ 0) (h253 : n ≠ 253) :
    bodies.getD n [] = (primitives (codes.getD n 0)).map statement := by
  have hlength : codes.length = 256 := by decide +kernel
  have hcodes : n < codes.length := hlength.symm ▸ hn
  have hcell := congrArg (fun table => table[n]?) codes_table
  rw [List.getElem?_set_ne h253.symm, List.getElem?_set_ne h0.symm, List.getElem?_map,
    List.getElem?_eq_getElem hcodes] at hcell
  rw [List.getD_eq_getElem?_getD, ← hcell, List.getD_eq_getElem?_getD,
    List.getElem?_eq_getElem hcodes]
  rfl

theorem foldl_primitive (cs : List (Fin 16)) (x : Register) (p2 : UInt8) :
    cs.foldl (fun x c => primitive c x (set1Epi8 p2)) x =
      fun k => evalBody (cs.map statement) p2 (x k) := by
  induction cs generalizing x with
  | nil => rfl
  | cons c cs ih =>
      rw [List.foldl_cons, ih, primitive_eq]
      rfl

/-- The bounds as signed bytes. -/
theorem signed_bounds : ∀ k < 32,
    (∀ lo < 32, (UInt8.ofNat lo - 1).toInt8 < (UInt8.ofNat k).toInt8 ↔ lo ≤ k) ∧
    (∀ hi < 33, (UInt8.ofNat k).toInt8 < (UInt8.ofNat hi).toInt8 ↔ k < hi) := by
  decide +kernel

/-- The signed comparisons cut out the bytes of the op. -/
theorem mask_eq {lo hi : Nat} (hlo : lo < 32) (hhi : hi < 33) (k : Fin 32) :
    0x80 ≤ andSi256 (cmpgtEpi8 (fun k => UInt8.ofNat k.val) (set1Epi8 (UInt8.ofNat lo - 1)))
        (cmpgtEpi8 (set1Epi8 (UInt8.ofNat hi)) (fun k => UInt8.ofNat k.val)) k ↔
      lo ≤ k.val ∧ k.val < hi := by
  obtain ⟨hlow, hhigh⟩ := signed_bounds k.val k.isLt
  simp only [andSi256, cmpgtEpi8, set1Epi8, hlow lo hlo, hhigh hi hhi]
  split <;> split <;> simp_all

theorem get_store (s : Block256) (start : Fin 225) (v : Register) (i : Fin 256) :
    (store s start v).get i =
      if h : start.val ≤ i.val ∧ i.val < start.val + 32 then v ⟨i.val - start.val, by omega⟩
      else s.get i :=
  Vector.getElem_ofFn i.isLt

/-- The window holds all bytes of the op. -/
theorem store_blend (s : Block256) {p1 p2 : Nat} (hle : p1 ≤ p2) (hwide : p2 - p1 ≤ 32)
    {f : UInt8 → UInt8} {mask : Register}
    (hmask : ∀ k : Fin 32, 0x80 ≤ mask k ↔
      p1 - (windowStart p1).val ≤ k.val ∧ k.val < p2 - (windowStart p1).val) :
    store s (windowStart p1) (blendvEpi8 (load s (windowStart p1))
        (fun k => f (load s (windowStart p1) k)) mask) = transformed f p1 p2 s := by
  have hstart : (windowStart p1).val = min p1 224 := rfl
  apply block_ext
  intro i
  rw [get_store, get_transformed]
  split
  · rename_i hin
    have hload : load s (windowStart p1) ⟨i.val - (windowStart p1).val, by omega⟩ = s.get i := by
      rw [load]
      congr 1
      apply Fin.ext
      dsimp only
      omega
    have hiff : (p1 - (windowStart p1).val ≤ i.val - (windowStart p1).val ∧
        i.val - (windowStart p1).val < p2 - (windowStart p1).val) ↔ (p1 ≤ i.val ∧ i.val < p2) := by
      omega
    rw [blendvEpi8, if_congr ((hmask _).trans hiff) rfl rfl, hload]
  · rename_i hout
    rw [if_neg (by omega)]

theorem apply_eq (xxh64 : List UInt8 → UInt64) {op pos1 pos2 : UInt8} (h0 : op ≠ 0)
    (h253 : op ≠ 253) (hle : pos1 ≤ pos2) (hwide : pos2 - pos1 ≤ 32) (st : OpState) :
    apply op pos1 pos2 st = applyOp xxh64 op pos1 pos2 st := by
  have hnat : pos1.toNat ≤ pos2.toNat := hle
  have hdiff : pos2.toNat - pos1.toNat ≤ 32 := by
    have hsub := UInt8.toNat_sub_of_le pos2 pos1 hle
    have h32 : (pos2 - pos1).toNat ≤ 32 := hwide
    omega
  have hbody := codes_bodies op.toNat_lt (fun h => h0 (UInt8.toNat_inj.mp h))
    (fun h => h253 (UInt8.toNat_inj.mp h))
  rw [apply, applyOp]
  generalize (if op ≥ 254 then { st with rc4 := Rc4.new st.step3 } else st) = st
  rw [turns_eq xxh64 h0 h253 _ (by omega), hbody, Nat.add_sub_cancel' hnat]
  split
  · rename_i hsame
    rw [hsame, transformed_empty]
  · have hstart : (windowStart pos1.toNat).val = min pos1.toNat 224 := rfl
    dsimp only
    rw [foldl_primitive, store_blend st.step3 hnat hdiff]
    have hp1 := pos1.toNat_lt
    have hp2 := pos2.toNat_lt
    rw [hstart]
    exact mask_eq (by omega) (by omega)

theorem applyOpAvx2_eq (xxh64 : List UInt8 → UInt64) (detected : Bool) {op pos1 pos2 : UInt8}
    (hle : pos1 ≤ pos2) (hwide : pos2 - pos1 ≤ 32) (st : OpState) :
    applyOpAvx2 xxh64 detected op pos1 pos2 st = applyOp xxh64 op pos1 pos2 st := by
  unfold applyOpAvx2
  split
  · rfl
  · rename_i hvector
    simp only [not_or] at hvector
    exact apply_eq xxh64 hvector.1 hvector.2.1 hle hwide st

theorem applyOpAvx2_eq_sample :
    applyOpAvx2 (fun _ => 0) true 5 230 250
        ⟨Vector.replicate 256 7, 1, 2, Rc4.new (Vector.replicate 256 7)⟩ =
      applyOp (fun _ => 0) 5 230 250
        ⟨Vector.replicate 256 7, 1, 2, Rc4.new (Vector.replicate 256 7)⟩ :=
  applyOpAvx2_eq (fun _ => 0) true (by decide) (by decide) _

end Agreement

end DirtybirdMiner.Astro.OpsAvx2
